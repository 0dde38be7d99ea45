import GrammarSampler.Grammar.Lemmas
import GrammarSampler.Proofs.Derivation.Height
import GrammarSampler.Proofs.Tree.Walk

/-!
# Parts of derivations

What hangs so many levels below the root of a derivation. In a tree that shows the derivation, the
parts hang on the nodes that a walk visits at that depth.
-/

namespace GrammarSampler

namespace Derivation

variable {d e : Derivation} {n : Nat} {g : Grammar}

/-- Whether the last derivation is what hangs somewhere in the first, so many levels below its
root. -/
inductive Part : Derivation → Nat → Derivation → Prop
  | self (d : Derivation) : Part d 0 d
  | inner {symbol : String} {rule n : Nat} {children : List Derivation} {child e : Derivation}
      (hchild : child ∈ children) (hpart : Part child n e) :
      Part (.node symbol rule children) (n + 1) e

theorem Part.add_height_le (h : d.Part n e) : n + e.height ≤ d.height := by
  induction h with
  | self d => rw [Nat.zero_add]
  | inner hchild _ ih =>
      have hheight := ih.trans (heights_le_iff.1 le_rfl _ hchild)
      rw [height]
      omega

theorem Part.split {m : Nat} (h : d.Part (m + n) e) : ∃ c, d.Part m c ∧ c.Part n e := by
  induction m generalizing d with
  | zero =>
      rw [Nat.zero_add] at h
      exact ⟨d, .self d, h⟩
  | succ m ih =>
      rw [Nat.add_right_comm] at h
      cases h with
      | inner hchild hpart =>
          obtain ⟨c, hc, he⟩ := ih hpart
          exact ⟨c, .inner hchild hc, he⟩

theorem Part.complete (h : d.Part n e) (hd : d.Complete g) :
    e.Complete g ∧ g.Reaches d.root e.root := by
  induction h with
  | self => exact ⟨hd, .refl⟩
  | inner hchild _ ih =>
      cases hd with
      | node hrule hroots hchildren =>
          obtain ⟨he, hreach⟩ := ih (hchildren _ hchild)
          refine ⟨he, Grammar.Reaches.trans ?_ hreach⟩
          have htoken : _ ∈ _ := hroots ▸ List.mem_map_of_mem hchild
          exact .step .refl (List.mem_of_getElem? hrule) htoken

end Derivation

namespace Tree

open GrammarSampler.Derivation (Part)

variable {t : Tree}

mutual

theorem exists_part_of_mem_spread {depth id : Nat} {visit : Nat × Nat} :
    (d : Derivation) → t.Shows id d → visit ∈ t.spread depth id d →
      ∃ n e, visit.1 = depth + n ∧ Part d n e ∧ t.Shows visit.2 e
  | .leaf symbol, hs, hv => by
      obtain rfl := List.mem_singleton.1 hv
      exact ⟨0, _, rfl, .self _, hs⟩
  | .pending symbol, hs, hv => by
      obtain rfl := List.mem_singleton.1 hv
      exact ⟨0, _, rfl, .self _, hs⟩
  | .node symbol rule ds, hs, hv => by
      rcases List.mem_cons.1 hv with rfl | hv
      · exact ⟨0, _, rfl, .self _, hs⟩
      · obtain ⟨d, hd, n, e, hdepth, hpart, he⟩ := exists_part_of_mem_spreadAll ds hs.lookup.2 hv
        exact ⟨n + 1, e, by rw [hdepth, Nat.add_assoc, Nat.add_comm 1], .inner hd hpart, he⟩

theorem exists_part_of_mem_spreadAll {depth : Nat} {visit : Nat × Nat} :
    {ids : List Nat} → (ds : List Derivation) → t.ShowsAll ids ds →
      visit ∈ t.spreadAll depth ids ds →
        ∃ d ∈ ds, ∃ n e, visit.1 = depth + n ∧ Part d n e ∧ t.Shows visit.2 e
  | [], _, _, hv => by simp [spreadAll] at hv
  | _ :: _, [], hs, _ => hs.elim
  | _ :: _, d :: ds, hs, hv => by
      rcases List.mem_append.1 hv with hv | hv
      · exact ⟨d, List.mem_cons_self, exists_part_of_mem_spread d hs.1 hv⟩
      · obtain ⟨e, he, hmore⟩ := exists_part_of_mem_spreadAll ds hs.2 hv
        exact ⟨e, List.mem_cons_of_mem d he, hmore⟩

end

end Tree

end GrammarSampler
