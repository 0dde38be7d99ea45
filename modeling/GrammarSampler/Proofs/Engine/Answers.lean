import GrammarSampler.Proofs.Engine.Ends
import GrammarSampler.Proofs.Engine.Projection
import GrammarSampler.Proofs.Random.Fair

/-!
# Choices that are made

With its own costs a grammar gives a derivation that ends, with a tree or with a failure, as soon as
every choice on the way is made. Choices from a fair source are.
-/

namespace GrammarSampler

variable {σ : Type} {s : Setting} {choose : Chooser σ} {source : σ}

namespace Chooser

/-- Whether every choice from `source` on is made. -/
def Answers (choose : Chooser σ) (s : Setting) (source : σ) : Prop :=
  ∃ p : σ → Prop, p source ∧ ∀ site options now, p now →
    s.options site.symbol site.depth = .ok options →
      ∃ rule after, choose site options now = some (rule, after) ∧ p after

/-! ## Confined choosers -/

open Classical in
/-- The chooser that stops where what it draws from is not as `p` says. -/
noncomputable def confined (choose : Chooser σ) (p : σ → Prop) : Chooser {now // p now} :=
  fun site options now => (choose site options now).bind fun (rule, after) =>
    if h : p after then some (rule, ⟨after, h⟩) else none

theorem confined_eq {p : σ → Prop} {site : Site} {options : Options} {now : {now // p now}}
    {rule : Nat} {after : σ} (hchoose : choose site options now = some (rule, after))
    (h : p after) : choose.confined p site options now = some (rule, ⟨after, h⟩) := by
  simp [confined, hchoose, h]

theorem obeys_confined (hobeys : choose.Obeys s) (p : σ → Prop) : (choose.confined p).Obeys s := by
  intro site options now rule after ho hchoose
  obtain ⟨⟨other, later⟩, hother, hif⟩ := Option.bind_eq_some_iff.1 hchoose
  obtain ⟨h, heq⟩ := Option.dite_none_right_eq_some.1 hif
  cases heq
  exact hobeys site options now rule later ho hother

end Chooser

namespace Setting

variable {g : Grammar} {maxDepth : Nat} {nodeLimit : Option Nat} {strategy : Strategy}
  {start : String}

theorem tame_of_total {rank : Nat → String → Nat} (hrank : s.Ranks rank) (hobeys : choose.Obeys s)
    (htotal : ∀ site options now, s.options site.symbol site.depth = .ok options →
      choose site options now ≠ none)
    {levels : Nat} {site : Site} (hlevels : rank site.depth site.symbol < levels) :
    s.Tame choose levels site := by
  induction levels generalizing site with
  | zero => exact absurd hlevels (Nat.not_lt_zero _)
  | succ levels ih =>
      intro options now ho
      obtain ⟨⟨rule, after⟩, hchoose⟩ := Option.ne_none_iff_exists'.1 (htotal site options now ho)
      refine ⟨rule, after, hchoose, fun child hc hd => ih ?_⟩
      obtain ⟨place, token, id, htoken, rfl⟩ := hc
      have hdown := hrank _ _ options rule ho (hobeys _ _ _ _ _ ho hchoose) token
        (List.mem_of_getElem? htoken) hd
      exact Nat.lt_of_lt_of_le hdown (Nat.le_of_lt_succ hlevels)

/-- With its own costs a derivation ends as soon as every choice is made. Every choice is made from
what it leaves, too. -/
theorem exists_grow_answers (hobeys : choose.Obeys (own g maxDepth nodeLimit))
    (hanswers : choose.Answers (own g maxDepth nodeLimit) source) :
    ∃ result after,
      (own g maxDepth nodeLimit).grow strategy choose start source = some (result, after) ∧
        choose.Answers (own g maxDepth nodeLimit) after.source := by
  obtain ⟨p, hp, hanswer⟩ := hanswers
  set s := own g maxDepth nodeLimit
  have htotal : ∀ site options now, s.options site.symbol site.depth = .ok options →
      choose.confined p site options now ≠ none := by
    intro site options now ho
    obtain ⟨rule, after, hchoose, hafter⟩ := hanswer site options now now.2 ho
    rw [Chooser.confined_eq hchoose hafter]
    exact Option.some_ne_none _
  have hover : (choose.confined p).Over Subtype.val s choose := by
    intro site options now ho
    obtain ⟨rule, after, hchoose, hafter⟩ := hanswer site options now now.2 ho
    rw [Chooser.confined_eq hchoose hafter, hchoose]
    rfl
  have hends : s.grow strategy (choose.confined p) start ⟨source, hp⟩ ≠ none := by
    refine grow_ne_none strategy _ fun _ => ?_
    refine tame_of_total (ranks_own g maxDepth nodeLimit) ?_ htotal ?_
    · exact Chooser.obeys_confined hobeys p
    · exact ownRank_root_lt_levels g maxDepth nodeLimit start
  obtain ⟨⟨result, after⟩, hgrow⟩ := Option.ne_none_iff_exists'.1 hends
  refine ⟨result, after.map Subtype.val, ?_, p, after.source.2, hanswer⟩
  rw [← map_grow hover strategy start ⟨source, hp⟩, hgrow]
  rfl

theorem exists_grow_own (hobeys : choose.Obeys (own g maxDepth nodeLimit))
    (hanswers : choose.Answers (own g maxDepth nodeLimit) source) :
    ∃ result after,
      (own g maxDepth nodeLimit).grow strategy choose start source = some (result, after) := by
  have hgrow : ∃ result after, (own g maxDepth nodeLimit).grow strategy choose start source =
      some (result, after) ∧ choose.Answers (own g maxDepth nodeLimit) after.source :=
    exists_grow_answers hobeys hanswers
  obtain ⟨result, after, hgrow, -⟩ := hgrow
  exact ⟨result, after, hgrow⟩

end Setting

theorem Source.answers_choose {source : Source} (h : source.Fair) (s : Setting) :
    Source.choose.Answers s source := by
  refine ⟨Fair, h, fun site options now hnow ho => ?_⟩
  obtain ⟨hr, ⟨-, rfl⟩ | ⟨-, hcheap, rfl⟩⟩ := Setting.options_eq_ok_iff.1 ho
  · exact hnow.exists_below .w64 (List.length_pos_iff.2 hr)
  · obtain ⟨place, after, hbelow, hafter⟩ := hnow.exists_below _ (List.length_pos_iff.2 hcheap)
    exact ⟨_, after, by rw [Source.choose, hbelow]; rfl, hafter⟩

end GrammarSampler
