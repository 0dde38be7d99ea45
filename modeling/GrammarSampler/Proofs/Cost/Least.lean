import GrammarSampler.Proofs.Cost.Sweep

/-!
# The least costs

Repeated sweeps end at costs that count exactly the derivations: a symbol costs at most `n` if and
only if it has a derivation of height at most `n`.
-/

open GrammarSampler.Derivation (Within)

namespace GrammarSampler.Cost

variable {g : Grammar} {known after before : SymbolMap Cost} {symbol : String}
  {order : Nat → List (String × List Rule)}

/-! ## Numbers stay small -/

def expandable (g : Grammar) : Finset String := g.symbols.toFinset.filter (g.rulesOf · ≠ [])

def found (g : Grammar) (known : SymbolMap Cost) : Finset String :=
  (expandable g).filter fun symbol => (known.get? symbol).any isFinite

/-- Whether no cost is a number past the number of symbols found. -/
def Counted (g : Grammar) (known : SymbolMap Cost) : Prop :=
  ∀ symbol n, known.get? symbol = some (.finite n) → n ≤ (found g known).card

theorem mem_expandable_iff : symbol ∈ expandable g ↔ g.rulesOf symbol ≠ [] := by
  simp only [expandable, Finset.mem_filter, List.mem_toFinset, Grammar.mem_symbols_iff,
    and_iff_right_iff_imp]
  exact Grammar.defines_of_rulesOf_ne_nil

theorem mem_found_iff :
    symbol ∈ found g known ↔ symbol ∈ expandable g ∧ ∃ n, known.get? symbol = some (.finite n) := by
  rw [found, Finset.mem_filter, and_congr_right_iff]
  intro _
  cases known.get? symbol with
  | none => simp
  | some cost => cases cost <;> simp [isFinite]

theorem card_expandable_le (g : Grammar) : (expandable g).card ≤ g.size := by
  calc (expandable g).card ≤ g.symbols.toFinset.card := Finset.card_filter_le _ _
    _ ≤ g.symbols.length := g.symbols.toFinset_card_le
    _ = g.size := by simp [Grammar.symbols, Grammar.size, SymbolMap.keys, SymbolMap.size]

theorem Below.found_subset (h : Below after before) : found g before ⊆ found g after := by
  intro symbol hs
  obtain ⟨hs, n, hn⟩ := mem_found_iff.1 hs
  obtain ⟨less, hle, hl⟩ := h.exists_le hn
  obtain ⟨m, -, rfl⟩ := le_finite_iff.1 hle
  exact mem_found_iff.2 ⟨hs, m, hl⟩

theorem Counted.ofRule_le (h : Counted g known) {rule : Rule} {n : Nat}
    (hr : ofRule known.get? rule = .finite n) : n ≤ (found g known).card + 1 := by
  cases n with
  | zero => omega
  | succ k =>
      rw [← finite_le_finite, ← hr]
      refine ofRule_le_finite_succ_iff.2 fun token ht cost hc => ?_
      obtain ⟨j, -, rfl⟩ := le_finite_iff.1 (ofRule_le_finite_succ_iff.1 hr.le token ht cost hc)
      exact finite_le_finite.2 (h token j hc)

theorem Counted.lower (h : Counted g known) (hk : known.contains symbol = true)
    (hr : g.rulesOf symbol ≠ [] ∨ rules = []) : Counted g (Cost.lower known symbol rules) := by
  intro other n hn
  have hsub := Finset.card_le_card ((lower_below hk rules).found_subset (g := g))
  obtain ⟨old, ho⟩ := exists_of_contains hk
  have hn' := hn
  rw [get?_lower ho] at hn'
  by_cases heq : other = symbol
  · subst heq
    rw [if_pos rfl, Option.some.injEq] at hn'
    cases hl : least? known.get? rules with
    | none =>
        rw [hl, Option.elim_none] at hn'
        exact (h other n (hn' ▸ ho)).trans hsub
    | some least =>
        rw [hl, Option.elim_some] at hn'
        cases old with
        | finite m =>
            have hle : Cost.finite n ≤ .finite m := hn' ▸ min_le_right _ _
            exact (finite_le_finite.1 hle).trans ((h other m ho).trans hsub)
        | infinite =>
            rw [min_eq_left (le_infinite _)] at hn'
            obtain ⟨⟨rule, hmem, hrule⟩, -⟩ := least?_eq_some_iff.1 hl
            -- the symbol is found only now, so there is one more than before
            have hnew : other ∈ found g (Cost.lower known other rules) := by
              refine mem_found_iff.2 ⟨mem_expandable_iff.2 (hr.resolve_right ?_), n, hn⟩
              exact List.ne_nil_of_mem hmem
            have hold : other ∉ found g known := by simp [mem_found_iff, ho]
            have hlt := Finset.card_lt_card
              ((Finset.ssubset_iff_of_subset ((lower_below hk rules).found_subset)).2
                ⟨other, hnew, hold⟩)
            have := h.ofRule_le (hrule.trans hn')
            omega
  · exact (h other n ((if_neg heq).symm.trans hn')).trans hsub

theorem Counted.sweep {visited : List (String × List Rule)} (hvisited : InOrder g visited)
    (hs : Sound g known) (h : Counted g known) : Counted g (Cost.sweep visited known) := by
  refine (sweep_induction (p := fun known => Sound g known ∧ Counted g known)
    (fun entry he known hk => ?_) ⟨hs, h⟩).2
  obtain ⟨hd, hr⟩ := Grammar.mem_entries_iff.1 (hvisited entry he)
  refine ⟨hr ▸ hk.1.lower hd, hk.2.lower ((hk.1.domain _).trans hd) ?_⟩
  rw [← hr]
  exact (em (g.rulesOf entry.1 = [])).symm

/-! ## Repeated sweeps -/

def swept (g : Grammar) (n : Nat) : SymbolMap Cost := (sweep g.rules.entries)^[n] (initial g)

theorem settle_eq_iterate (g : Grammar) (fuel : Nat) (known : SymbolMap Cost) :
    settle g fuel known = (sweep g.rules.entries)^[fuel] known := by
  induction fuel generalizing known with
  | zero => rfl
  | succ fuel ih =>
      rw [settle, Function.iterate_succ_apply]
      split
      · rename_i h
        rw [h, Function.iterate_fixed h]
      · exact ih _

theorem ofSymbols_eq_swept (g : Grammar) : ofSymbols g = swept g (g.size + 1) :=
  settle_eq_iterate g _ _

theorem get?_initial (g : Grammar) (symbol : String) :
    (initial g).get? symbol = (g.rules.get? symbol).map
      fun rules => if rules.isEmpty then .finite 0 else .infinite :=
  SymbolMap.get?_map _ _ _

theorem sound_initial (g : Grammar) : Sound g (initial g) := by
  refine ⟨fun symbol => by simp [SymbolMap.contains, get?_initial, Grammar.defines], ?_⟩
  intro symbol cost n hc hn
  rw [get?_initial, Option.map_eq_some_iff] at hc
  obtain ⟨rules, hr, rfl⟩ := hc
  cases rules with
  | nil => exact Derivation.within_of_rulesOf_eq_nil (by simp [Grammar.rulesOf, hr]) n
  | cons rule rules => simp at hn

theorem exactTo_initial (g : Grammar) : ExactTo g 0 (initial g) := by
  intro symbol n hn hw cost hc
  obtain rfl := Nat.le_zero.1 hn
  have hr := Derivation.within_zero_iff.1 hw
  rw [get?_initial, Option.map_eq_some_iff] at hc
  obtain ⟨rules, hs, rfl⟩ := hc
  simp_all [Grammar.rulesOf]

theorem counted_initial (g : Grammar) : Counted g (initial g) := by
  intro symbol n hn
  rw [get?_initial, Option.map_eq_some_iff] at hn
  obtain ⟨rules, -, hn⟩ := hn
  split at hn
  · cases hn
    exact Nat.zero_le _
  · cases hn

/-! ## Sweeps in any order -/

/-- Whether every sweep visits each symbol with an entry once. -/
def Visits (g : Grammar) (order : Nat → List (String × List Rule)) : Prop :=
  ∀ n, (order n).Perm g.rules.entries

theorem visits_entries (g : Grammar) : Visits g fun _ => g.rules.entries := fun _ => .refl _

theorem Visits.inOrder (h : Visits g order) (n : Nat) : InOrder g (order n) :=
  fun _ he => (h n).mem_iff.1 he

theorem Visits.mem (h : Visits g order) (n : Nat) : ∀ entry ∈ g.rules.entries, entry ∈ order n :=
  fun _ he => (h n).mem_iff.2 he

/-- The costs after so many sweeps, each in its own order. -/
def sweptBy (g : Grammar) (order : Nat → List (String × List Rule)) : Nat → SymbolMap Cost
  | 0 => initial g
  | n + 1 => sweep (order n) (sweptBy g order n)

theorem sound_sweptBy (h : Visits g order) (n : Nat) : Sound g (sweptBy g order n) := by
  induction n with
  | zero => exact sound_initial g
  | succ n ih => exact ih.sweep (h.inOrder n)

theorem exactTo_sweptBy (h : Visits g order) (n : Nat) : ExactTo g n (sweptBy g order n) := by
  induction n with
  | zero => exact exactTo_initial g
  | succ n ih => exact (sound_sweptBy h n).exactTo_sweep (h.inOrder n) (h.mem n) ih

theorem counted_sweptBy (h : Visits g order) (n : Nat) : Counted g (sweptBy g order n) := by
  induction n with
  | zero => exact counted_initial g
  | succ n ih => exact ih.sweep (h.inOrder n) (sound_sweptBy h n)

theorem swept_eq_sweptBy (g : Grammar) (n : Nat) :
    swept g n = sweptBy g (fun _ => g.rules.entries) n := by
  induction n with
  | zero => rfl
  | succ n ih => rw [swept, Function.iterate_succ_apply', sweptBy, ← ih, swept]

theorem sound_swept (g : Grammar) (n : Nat) : Sound g (swept g n) :=
  swept_eq_sweptBy g n ▸ sound_sweptBy (visits_entries g) n

theorem exactTo_swept (g : Grammar) (n : Nat) : ExactTo g n (swept g n) :=
  swept_eq_sweptBy g n ▸ exactTo_sweptBy (visits_entries g) n

theorem counted_swept (g : Grammar) (n : Nat) : Counted g (swept g n) :=
  swept_eq_sweptBy g n ▸ counted_sweptBy (visits_entries g) n

/-! ## Where the sweeps end -/

/-- The flattest derivation of a symbol is no higher than there are symbols with rules. -/
theorem within_card_expandable {n : Nat} (h : Within g symbol n) :
    Within g symbol (expandable g).card := by
  by_cases hr : g.rulesOf symbol = []
  · exact Derivation.within_of_rulesOf_eq_nil hr _
  · have hd := Grammar.defines_of_rulesOf_ne_nil hr
    have hs := sound_swept g n
    obtain ⟨cost, hc⟩ := exists_of_contains ((hs.domain symbol).trans hd)
    obtain ⟨m, -, rfl⟩ := le_finite_iff.1 (exactTo_swept g n symbol n le_rfl h cost hc)
    exact (hs.within hc le_rfl).mono
      ((counted_swept g n symbol m hc).trans (Finset.card_le_card (Finset.filter_subset _ _)))

/-- A cost at the end is at most `n` if and only if there is a derivation of height at most `n`. -/
theorem le_finite_iff_within {cost : Cost} {n : Nat} (hc : (ofSymbols g).get? symbol = some cost) :
    cost ≤ .finite n ↔ Within g symbol n := by
  rw [ofSymbols_eq_swept] at hc
  refine ⟨(sound_swept g _).within hc, fun h => ?_⟩
  rcases Nat.le_total n (g.size + 1) with hn | hn
  · exact exactTo_swept g _ symbol n hn h cost hc
  · have hcard : (expandable g).card ≤ g.size + 1 := (card_expandable_le g).trans (Nat.le_succ _)
    refine (exactTo_swept g _ symbol _ hcard (within_card_expandable h) cost hc).trans ?_
    exact finite_le_finite.2 (hcard.trans hn)

theorem contains_ofSymbols (g : Grammar) (symbol : String) :
    (ofSymbols g).contains symbol = g.defines symbol := by
  rw [ofSymbols_eq_swept]
  exact (sound_swept g _).domain symbol

/-! ## Settled costs -/

/-- Whether each known cost is the least height of the derivations of its symbol. -/
def Settled (g : Grammar) (known : SymbolMap Cost) : Prop := Sound g known ∧ ∀ k, ExactTo g k known

theorem Settled.le_finite_iff (h : Settled g known) {cost : Cost} {n : Nat}
    (hc : known.get? symbol = some cost) : cost ≤ .finite n ↔ Within g symbol n :=
  ⟨h.1.within hc, fun hw => h.2 n symbol n le_rfl hw cost hc⟩

theorem Settled.unique (h : Settled g known) (h' : Settled g after) : known = after := by
  refine SymbolMap.ext_get? fun symbol => ?_
  have hdomain := (h.1.domain symbol).trans (h'.1.domain symbol).symm
  cases hk : known.get? symbol with
  | none =>
      rw [SymbolMap.contains, SymbolMap.contains, hk] at hdomain
      exact (Option.isNone_iff_eq_none.1 (Option.isSome_eq_false_iff.1 hdomain.symm)).symm
  | some cost =>
      obtain ⟨other, ho⟩ := exists_of_contains (hdomain.symm.trans (contains_of_get? hk))
      rw [ho, eq_of_le_finite_iff fun n => (h.le_finite_iff hk).trans (h'.le_finite_iff ho).symm]

theorem settled_ofSymbols (g : Grammar) : Settled g (ofSymbols g) := by
  refine ⟨ofSymbols_eq_swept g ▸ sound_swept g _, fun k symbol n _ hw cost hc => ?_⟩
  exact (le_finite_iff_within hc).2 hw

theorem Below.exactTo {k : Nat} (h : Below after before) (hk : ExactTo g k before) :
    ExactTo g k after := by
  intro symbol n hn hw cost hc
  obtain ⟨old, ho⟩ := exists_of_contains ((h.domain symbol).symm.trans (contains_of_get? hc))
  exact (h.le hc ho).trans (hk symbol n hn hw old ho)

theorem Settled.sweep_eq {visited : List (String × List Rule)} (h : Settled g known)
    (hvisited : InOrder g visited) : sweep visited known = known := by
  have hbelow := sweep_below (h.1.contains_of_mem hvisited)
  exact Settled.unique ⟨h.1.sweep hvisited, fun k => hbelow.exactTo (h.2 k)⟩ h

/-- Costs that a whole sweep leaves alone are right at every height, one after the other. -/
theorem Sound.settled_of_sweep_eq {visited : List (String × List Rule)} (h : Sound g known)
    (hzero : ExactTo g 0 known) (hvisited : InOrder g visited)
    (hall : ∀ entry ∈ g.rules.entries, entry ∈ visited) (hsame : Cost.sweep visited known = known) :
    Settled g known := by
  refine ⟨h, fun k => ?_⟩
  induction k with
  | zero => exact hzero
  | succ k ih => exact hsame ▸ h.exactTo_sweep hvisited hall ih

end GrammarSampler.Cost
