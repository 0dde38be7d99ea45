import GrammarSampler.Proofs.Tree.Walk

/-!
# Level order

The nodes of a tree level by level, and each level from left to right, the order in which a walk
visits it.
-/

namespace GrammarSampler.Tree

variable {α : Type} {l m : List (Nat × α)}

/-- The nodes that hang on the root, level by level, each with its depth. -/
def levelOrder (t : Tree) : List (Nat × Node) :=
  (List.range t.size).flatMap fun n => t.walk.filter (·.1 = n)

/-- Whether `l` has the entries of `m` level by level, and those of a level in the order of `m`. -/
structure Leveled (l m : List (Nat × α)) : Prop where
  sorted : l.Pairwise (·.1 ≤ ·.1)
  filter : ∀ n, l.filter (·.1 = n) = m.filter (·.1 = n)

theorem Leveled.mem_iff (h : Leveled l m) {x : Nat × α} : x ∈ l ↔ x ∈ m := by
  have hx : x ∈ l.filter (·.1 = x.1) ↔ x ∈ m.filter (·.1 = x.1) := by rw [h.filter]
  simpa using hx

theorem Leveled.perm [DecidableEq α] (h : Leveled l m) : l.Perm m := by
  refine List.perm_iff_count.2 fun x => ?_
  have hx := congrArg (List.count x) (h.filter x.1)
  rwa [List.count_filter (by simp), List.count_filter (by simp)] at hx

theorem Leveled.cons {x : Nat × α} (h : Leveled l m) (hx : ∀ y ∈ m, x.1 ≤ y.1) :
    Leveled (x :: l) (x :: m) := by
  refine ⟨List.pairwise_cons.2 ⟨fun y hy => hx y (h.mem_iff.1 hy), h.sorted⟩, fun n => ?_⟩
  rw [List.filter_cons, List.filter_cons, h.filter]

theorem Leveled.insert {x : Nat × α} {before after : List (Nat × α)}
    (h : Leveled (x :: l) (x :: before ++ after)) (hx : ∀ y ∈ before, x.1 < y.1) :
    Leveled (x :: l) (before ++ x :: after) := by
  refine ⟨h.sorted, fun n => ?_⟩
  rw [h.filter, List.cons_append, List.filter_append, List.filter_cons, List.filter_append,
    List.filter_cons]
  by_cases hn : x.1 = n
  · have hbefore : before.filter (·.1 = n) = [] := by
      simp only [List.filter_eq_nil_iff, decide_eq_true_eq]
      intro y hy
      have := hx y hy
      omega
    simp [hn, hbefore]
  · simp [hn]

theorem filter_lt_append_filter_eq (h : l.Pairwise (·.1 ≤ ·.1)) {n : Nat}
    (hl : ∀ x ∈ l, x.1 < n + 1) : l.filter (·.1 < n) ++ l.filter (·.1 = n) = l := by
  induction l with
  | nil => rfl
  | cons x l ih =>
      obtain ⟨hx, hsorted⟩ := List.pairwise_cons.1 h
      have hmore := ih hsorted fun y hy => hl y (List.mem_cons_of_mem _ hy)
      rcases Nat.lt_or_ge x.1 n with hlt | hge
      · rw [List.filter_cons_of_pos (by simpa using hlt), List.filter_cons_of_neg (by simp; omega),
          List.cons_append, hmore]
      · have hxn : x.1 = n := by have := hl x List.mem_cons_self; omega
        have hnone : l.filter (·.1 < n) = [] := by
          simp only [List.filter_eq_nil_iff, decide_eq_true_eq]
          intro y hy
          have := hx y hy
          omega
        rw [List.filter_cons_of_neg (by simpa using hge), hnone,
          List.filter_cons_of_pos (by simpa using hxn), List.nil_append]
        rw [hnone, List.nil_append] at hmore
        rw [hmore]

theorem flatMap_filter_eq (h : l.Pairwise (·.1 ≤ ·.1)) {n : Nat} (hl : ∀ x ∈ l, x.1 < n) :
    (List.range n).flatMap (fun k => l.filter (·.1 = k)) = l := by
  induction n generalizing l with
  | zero =>
      cases l with
      | nil => rfl
      | cons x l => exact absurd (hl x List.mem_cons_self) (Nat.not_lt_zero _)
  | succ n ih =>
      have hbelow := ih (h.filter (·.1 < n)) (by simp)
      have hsame : ∀ k ∈ List.range n,
          (l.filter (·.1 < n)).filter (·.1 = k) = l.filter (·.1 = k) := by
        intro k hk
        have hk := List.mem_range.1 hk
        rw [List.filter_filter]
        refine List.filter_congr fun x _ => ?_
        by_cases hx : x.1 = k <;> simp [hx, hk]
      rw [List.flatMap_congr hsame] at hbelow
      rw [List.range_succ, List.flatMap_append, List.flatMap_singleton, hbelow,
        filter_lt_append_filter_eq h hl]

theorem Leveled.eq_flatMap (h : Leveled l m) {n : Nat} (hm : ∀ x ∈ m, x.1 < n) :
    (List.range n).flatMap (fun k => m.filter (·.1 = k)) = l := by
  simp only [← h.filter]
  exact flatMap_filter_eq h.sorted fun x hx => hm x (h.mem_iff.1 hx)

theorem filter_filterMap_seen (t : Tree) (visits : List (Nat × Nat)) (n : Nat) :
    (visits.filterMap t.seen?).filter (·.1 = n) =
      (visits.filter (·.1 = n)).filterMap t.seen? := by
  rw [List.filter_filterMap, List.filterMap_filter]
  refine List.filterMap_congr fun visit _ => ?_
  unfold seen?
  cases t.nodes[visit.2]? <;> by_cases hn : visit.1 = n <;> simp [hn]

theorem levelOrder_eq {t : Tree} {visits : List (Nat × Nat)} (h : Leveled visits t.visits)
    (hdepth : ∀ visit ∈ t.visits, visit.1 < t.size) :
    t.levelOrder = visits.filterMap t.seen? := by
  rw [← h.eq_flatMap hdepth, List.filterMap_flatMap, levelOrder, walk_eq]
  simp only [filter_filterMap_seen]

end GrammarSampler.Tree
