import GrammarSampler.Grammar.Lemmas
import GrammarSampler.Proofs.Cost.Order
import GrammarSampler.Proofs.Derivation.Height

/-!
# What a sweep keeps

A sweep lowers costs in place. It never promises a height that no derivation has, and each sweep
gets the derivations right that are one step higher. No number gets past the number of symbols whose
cost is known, so a bounded number of sweeps is enough.
-/

namespace GrammarSampler

open GrammarSampler.Derivation (Within)

theorem Grammar.mem_entries_iff {g : Grammar} {symbol : String} {rules : List Rule} :
    (symbol, rules) ∈ g.rules.entries ↔ g.defines symbol = true ∧ g.rulesOf symbol = rules := by
  rw [SymbolMap.mem_entries_iff, Grammar.defines, SymbolMap.contains, Grammar.rulesOf]
  cases g.rules.get? symbol <;> simp

namespace Cost

variable {g : Grammar} {known after before : SymbolMap Cost} {symbol : String} {rules : List Rule}

/-! ## Lowering costs -/

/-- Whether the same symbols have costs, and none of them got dearer. -/
structure Below (after before : SymbolMap Cost) : Prop where
  domain : ∀ symbol, after.contains symbol = before.contains symbol
  le : ∀ {symbol a b}, after.get? symbol = some a → before.get? symbol = some b → a ≤ b

theorem Below.refl (known : SymbolMap Cost) : Below known known :=
  ⟨fun _ => rfl, fun ha hb => le_of_eq (Option.some.inj (ha.symm.trans hb))⟩

theorem exists_of_contains (h : known.contains symbol = true) :
    ∃ cost, known.get? symbol = some cost :=
  Option.isSome_iff_exists.1 h

theorem contains_of_get? {cost : Cost} (h : known.get? symbol = some cost) :
    known.contains symbol = true :=
  Option.isSome_iff_exists.2 ⟨cost, h⟩

theorem Below.exists_le (h : Below after before) {cost : Cost}
    (hc : before.get? symbol = some cost) :
    ∃ less ≤ cost, after.get? symbol = some less := by
  obtain ⟨less, hl⟩ := exists_of_contains ((h.domain symbol).trans (contains_of_get? hc))
  exact ⟨less, h.le hl hc, hl⟩

theorem Below.trans {middle : SymbolMap Cost} (h₁ : Below after middle) (h₂ : Below middle before) :
    Below after before where
  domain symbol := (h₁.domain symbol).trans (h₂.domain symbol)
  le ha hb := by
    obtain ⟨m, hm, hm'⟩ := h₂.exists_le hb
    exact (h₁.le ha hm').trans hm

theorem Below.ofRule_le (h : Below after before) (rule : Rule) :
    ofRule after.get? rule ≤ ofRule before.get? rule := by
  cases hb : ofRule before.get? rule with
  | infinite => simp
  | finite n =>
      cases n with
      | zero => exact absurd hb.le (not_ofRule_le_zero _ _)
      | succ n =>
          refine ofRule_le_finite_succ_iff.2 fun token ht a ha => ?_
          obtain ⟨b, hb'⟩ := exists_of_contains ((h.domain token).symm.trans (contains_of_get? ha))
          exact (h.le ha hb').trans (ofRule_le_finite_succ_iff.1 hb.le token ht b hb')

theorem get?_lower {cost : Cost} (h : known.get? symbol = some cost) (rules : List Rule)
    (other : String) :
    (lower known symbol rules).get? other =
      if other = symbol then some ((least? known.get? rules).elim cost (min · cost))
      else known.get? other := by
  unfold lower
  cases hl : least? known.get? rules with
  | none =>
      by_cases ho : other = symbol <;> simp [ho, h]
  | some least =>
      simp only [h, Option.getD_some, Option.elim_some]
      by_cases hlt : least < cost
      · rw [if_pos hlt, SymbolMap.get?_insert, min_eq_left hlt.le]
      · rw [if_neg hlt, min_eq_right (le_of_not_gt hlt)]
        by_cases ho : other = symbol <;> simp [ho, h]

theorem lower_below (h : known.contains symbol = true) (rules : List Rule) :
    Below (lower known symbol rules) known := by
  obtain ⟨cost, hc⟩ := exists_of_contains h
  refine ⟨fun other => ?_, fun {other a b} ha hb => ?_⟩
  · rw [SymbolMap.contains, get?_lower hc]
    by_cases ho : other = symbol <;> simp [ho, hc, SymbolMap.contains]
  · rw [get?_lower hc] at ha
    by_cases ho : other = symbol
    · subst ho
      rw [hc] at hb
      cases hb
      cases hl : least? known.get? rules <;> simp_all
      simp [← ha]
    · rw [if_neg ho] at ha
      exact le_of_eq (Option.some.inj (ha.symm.trans hb))

theorem get?_lower_le {cost : Cost} {rule : Rule} (hr : rule ∈ rules)
    (h : known.contains symbol = true) (hc : (lower known symbol rules).get? symbol = some cost) :
    cost ≤ ofRule known.get? rule := by
  obtain ⟨old, ho⟩ := exists_of_contains h
  rw [get?_lower ho, if_pos rfl] at hc
  cases hl : least? known.get? rules with
  | none => simp [least?_eq_none_iff.1 hl] at hr
  | some least =>
      simp only [hl, Option.elim_some, Option.some.injEq] at hc
      subst hc
      exact (min_le_left _ _).trans ((least?_eq_some_iff.1 hl).2 rule hr)

/-! ## Sweeping -/

theorem sweep_cons (entry : String × List Rule) (order : List (String × List Rule))
    (known : SymbolMap Cost) :
    sweep (entry :: order) known = sweep order (lower known entry.1 entry.2) := rfl

theorem sweep_induction {p : SymbolMap Cost → Prop} {order : List (String × List Rule)}
    (hstep : ∀ entry ∈ order, ∀ known, p known → p (lower known entry.1 entry.2)) (h : p known) :
    p (sweep order known) := by
  induction order generalizing known with
  | nil => exact h
  | cons entry order ih =>
      rw [sweep_cons]
      exact ih (fun e he => hstep e (by simp [he])) (hstep entry (by simp) known h)

theorem sweep_below {order : List (String × List Rule)}
    (h : ∀ entry ∈ order, known.contains entry.1 = true) : Below (sweep order known) known := by
  refine sweep_induction (p := fun next => Below next known) (fun entry he next hn => ?_) (.refl _)
  exact (lower_below ((hn.domain _).trans (h entry he)) _).trans hn

theorem get?_sweep_le {order : List (String × List Rule)} {rule : Rule} {cost : Cost}
    (h : ∀ entry ∈ order, known.contains entry.1 = true) (hmem : (symbol, rules) ∈ order)
    (hr : rule ∈ rules) (hc : (sweep order known).get? symbol = some cost) :
    cost ≤ ofRule known.get? rule := by
  induction order generalizing known with
  | nil => simp at hmem
  | cons entry order ih =>
      rw [sweep_cons] at hc
      have hb := lower_below (h entry (by simp)) entry.2
      have hnext : ∀ e ∈ order, (lower known entry.1 entry.2).contains e.1 = true :=
        fun e he => (hb.domain _).trans (h e (by simp [he]))
      rcases List.mem_cons.1 hmem with rfl | hmem
      · have hsymbol := h (symbol, rules) (by simp)
        obtain ⟨less, hl⟩ := exists_of_contains ((hb.domain symbol).trans hsymbol)
        exact ((sweep_below hnext).le hc hl).trans (get?_lower_le hr hsymbol hl)
      · exact (ih hnext hmem hc).trans (hb.ofRule_le rule)

/-! ## Soundness -/

/-- Whether costs are known for the symbols of `g`, and each is the height of some derivation or
more. -/
structure Sound (g : Grammar) (known : SymbolMap Cost) : Prop where
  domain : ∀ symbol, known.contains symbol = g.defines symbol
  within : ∀ {symbol cost n}, known.get? symbol = some cost → cost ≤ .finite n → Within g symbol n

theorem Sound.within_of_ofRule_le (h : Sound g known) {rule : Rule} {n : Nat}
    (hr : ofRule known.get? rule ≤ .finite (n + 1)) : ∀ token ∈ rule.tokens, Within g token n := by
  intro token ht
  cases hc : known.get? token with
  | some cost => exact h.within hc (ofRule_le_finite_succ_iff.1 hr token ht cost hc)
  | none =>
      have hd : g.defines token = false := by rw [← h.domain, SymbolMap.contains, hc]; rfl
      exact Derivation.within_of_rulesOf_eq_nil (Grammar.rulesOf_eq_nil_of_not_defines hd) n

theorem Sound.lower (h : Sound g known) (hs : g.defines symbol = true) :
    Sound g (lower known symbol (g.rulesOf symbol)) := by
  have hk : known.contains symbol = true := (h.domain symbol).trans hs
  refine ⟨fun other => ((lower_below hk _).domain other).trans (h.domain other), ?_⟩
  intro other cost n hc hn
  obtain ⟨old, ho⟩ := exists_of_contains hk
  rw [get?_lower ho] at hc
  by_cases heq : other = symbol
  · subst heq
    rw [if_pos rfl, Option.some.injEq] at hc
    cases hl : least? known.get? (g.rulesOf other) with
    | none =>
        rw [hl, Option.elim_none] at hc
        exact h.within ho (hc ▸ hn)
    | some least =>
        simp only [hl, Option.elim_some] at hc
        subst hc
        rcases min_le_iff.1 hn with hn | hn
        · obtain ⟨⟨rule, hr, hrule⟩, -⟩ := least?_eq_some_iff.1 hl
          rw [← hrule] at hn
          cases n with
          | zero => exact absurd hn (not_ofRule_le_zero _ _)
          | succ n => exact Derivation.within_succ_iff.2 (.inr ⟨rule, hr, h.within_of_ofRule_le hn⟩)
        · exact h.within ho hn
  · exact h.within ((if_neg heq).symm.trans hc) hn

def InOrder (g : Grammar) (order : List (String × List Rule)) : Prop :=
  ∀ entry ∈ order, entry ∈ g.rules.entries

theorem Sound.sweep {order : List (String × List Rule)} (horder : InOrder g order)
    (h : Sound g known) : Sound g (sweep order known) := by
  refine sweep_induction (fun entry he next hn => ?_) h
  obtain ⟨hd, hr⟩ := Grammar.mem_entries_iff.1 (horder entry he)
  exact hr ▸ hn.lower hd

theorem Sound.contains_of_mem {order : List (String × List Rule)} (horder : InOrder g order)
    (h : Sound g known) : ∀ entry ∈ order, known.contains entry.1 = true := fun entry he =>
  (h.domain _).trans (Grammar.mem_entries_iff.1 (horder entry he)).1

/-! ## Exactness up to a height -/

/-- Whether the derivations of height at most `k` count in full. -/
def ExactTo (g : Grammar) (k : Nat) (known : SymbolMap Cost) : Prop :=
  ∀ symbol n, n ≤ k → Within g symbol n → ∀ cost, known.get? symbol = some cost → cost ≤ .finite n

theorem Sound.exactTo_sweep {k : Nat} {order : List (String × List Rule)} (horder : InOrder g order)
    (hall : ∀ entry ∈ g.rules.entries, entry ∈ order) (h : Sound g known) (hk : ExactTo g k known) :
    ExactTo g (k + 1) (Cost.sweep order known) := by
  intro symbol n hn hw cost hc
  have hdomain := h.contains_of_mem horder
  have hbelow := sweep_below hdomain
  obtain ⟨old, hold⟩ := exists_of_contains ((hbelow.domain symbol).symm.trans (contains_of_get? hc))
  have hlow {m : Nat} (hm : m ≤ k) (hw : Within g symbol m) : cost ≤ .finite m :=
    (hbelow.le hc hold).trans (hk symbol m hm hw old hold)
  rcases Nat.lt_or_ge k n with hlt | hle
  · obtain rfl : n = k + 1 := by omega
    rcases Derivation.within_succ_iff.1 hw with hnil | ⟨rule, hr, htokens⟩
    · exact (hlow (Nat.zero_le k) (Derivation.within_zero_iff.2 hnil)).trans (by simp)
    · have hs : g.defines symbol = true := (h.domain symbol).symm.trans (contains_of_get? hold)
      refine (get?_sweep_le hdomain (hall _ (Grammar.mem_entries_iff.2 ⟨hs, rfl⟩)) hr hc).trans ?_
      refine ofRule_le_finite_succ_iff.2 fun token ht b hb => ?_
      exact hk token k le_rfl (htokens token ht) b hb
  · exact hlow hle hw

end Cost

end GrammarSampler
