import GrammarSampler.Proofs.Engine.Moments
import GrammarSampler.Proofs.Tree.Arena

/-!
# Trees of derivations as arenas

At every moment of a derivation children come after their parents and hang in one place each, also
where it fails, and where nodes still wait for their rules. The children that a rule in progress has
so far hang nowhere until their parent is settled.
-/

namespace GrammarSampler

variable {σ : Type} {s : Setting} {strategy : Strategy} {choose : Chooser σ}

namespace Tree

variable {t : Tree} {id : Nat} {symbol : String} {state : NodeState} {ids more : List Nat}

/-! ## Steps -/

/-- The children of all nodes. -/
def hung (t : Tree) : List Nat := t.nodes.toList.flatMap Node.children

/-- Whether some nodes hang nowhere, and each stands in the list once. -/
def Spares (t : Tree) (ids : List Nat) : Prop := (t.hung ++ ids).Nodup

theorem arena_of_childless {node : Node} (h : node.children = []) : (ofNodes [node]).Arena where
  size_pos := Nat.one_pos
  child_lt := by simp [h]
  lt_child := by
    intro id other hother child hchild
    obtain rfl : other = node := by simpa using Array.mem_of_getElem? hother
    simp [h] at hchild
  nodup := by simp [h]

theorem Arena.lt_of_mem_hung (h : t.Arena) {child : Nat} (hchild : child ∈ t.hung) :
    child < t.size := by
  obtain ⟨node, hnode, hmem⟩ := List.mem_flatMap.1 hchild
  exact h.child_lt node (Array.mem_toList_iff.1 hnode) child hmem

theorem hung_push (hstate : Node.children ⟨symbol, state⟩ = []) :
    (t.push symbol state).hung = t.hung := by
  simp [hung, push, hstate]

/-- A node that is added has no children yet, so nothing comes to hang elsewhere. -/
theorem Arena.push (h : t.Arena) (hstate : Node.children ⟨symbol, state⟩ = []) :
    (t.push symbol state).Arena where
  size_pos := by simp
  child_lt := by
    intro node hnode child hchild
    rw [size_push]
    rcases Array.mem_push.1 hnode with hnode | rfl
    · exact Nat.lt_succ_of_lt (h.child_lt node hnode child hchild)
    · simp [hstate] at hchild
  lt_child := by
    intro id node hnode child hchild
    rw [Tree.push, Array.getElem?_push] at hnode
    split at hnode
    · cases hnode
      simp [hstate] at hchild
    · exact h.lt_child id node hnode child hchild
  nodup := by
    have hnodup := h.nodup
    rwa [← hung, ← hung_push hstate] at hnodup

theorem Spares.push (h : t.Spares ids) (ht : t.Arena) (hids : ∀ id ∈ ids, id < t.size)
    (hstate : Node.children ⟨symbol, state⟩ = []) :
    (t.push symbol state).Spares (t.size :: ids) := by
  have hnew : t.size ∉ t.hung ++ ids := by
    intro hmem
    rcases List.mem_append.1 hmem with hmem | hmem
    · exact Nat.lt_irrefl _ (ht.lt_of_mem_hung hmem)
    · exact Nat.lt_irrefl _ (hids _ hmem)
  rw [Spares, hung_push hstate]
  exact List.nodup_middle.2 (List.nodup_cons.2 ⟨hnew, h⟩)

theorem Spares.perm (h : t.Spares ids) (hperm : ids.Perm more) : t.Spares more :=
  (hperm.append_left t.hung).nodup_iff.1 h

theorem exists_nodes_resolve (hid : id < t.size) (state : NodeState) :
    ∃ before node after, t = ofNodes (before ++ node :: after) ∧
      t.resolve id state = ofNodes (before ++ { node with state } :: after) := by
  obtain ⟨nodes, rfl⟩ : ∃ nodes, t = ofNodes nodes := ⟨t.nodes.toList, rfl⟩
  rw [size_ofNodes] at hid
  have hsplit : nodes = nodes.take id ++ nodes[id] :: nodes.drop (id + 1) := by
    rw [List.getElem_cons_drop, List.take_append_drop]
  have hlength : (nodes.take id).length = id := by
    rw [List.length_take]
    exact Nat.min_eq_left (Nat.le_of_lt hid)
  have hresolve := resolve_ofNodes (nodes.take id) (nodes.drop (id + 1)) nodes[id] state
  rw [← hsplit, hlength] at hresolve
  exact ⟨_, _, _, congrArg ofNodes hsplit, hresolve⟩

/-- The nodes that are settled as children no longer hang nowhere. -/
theorem Spares.resolve (h : t.Spares (ids ++ more)) (hid : id < t.size) (rule : Nat) :
    (t.resolve id (.expanded rule ids)).Spares more := by
  obtain ⟨before, node, after, rfl, hresolve⟩ := exists_nodes_resolve hid (.expanded rule ids)
  have hhung : ∀ other : Node, (ofNodes (before ++ other :: after)).hung =
      before.flatMap Node.children ++ (other.children ++ after.flatMap Node.children) := by
    simp [hung]
  rw [Spares, hhung] at h
  have hkept : (before.flatMap Node.children ++ after.flatMap Node.children ++
      (ids ++ more)).Nodup :=
    h.sublist (((List.sublist_append_right _ _).append_left _).append_right _)
  rw [Spares, hresolve, hhung]
  refine List.Perm.nodup_iff ?_ |>.2 hkept
  simp only [List.append_assoc]
  exact (List.perm_append_comm_assoc ids (after.flatMap Node.children) more).append_left _

theorem Arena.resolve (h : t.Arena) (hids : t.Spares (ids ++ more)) (hid : id < t.size)
    (hlater : ∀ child ∈ ids, id < child ∧ child < t.size) (rule : Nat) :
    (t.resolve id (.expanded rule ids)).Arena := by
  have hnode : ∀ (other : Nat) (node : Node),
      (t.resolve id (.expanded rule ids)).nodes[other]? = some node →
        ∀ child ∈ node.children, other < child ∧ child < t.size := by
    intro other node hother child hchild
    rw [Tree.resolve, Array.getElem?_modify] at hother
    split at hother
    · next heq =>
        obtain ⟨former, -, rfl⟩ := Option.map_eq_some_iff.1 hother
        exact heq ▸ hlater child hchild
    · exact ⟨h.lt_child other node hother child hchild,
        h.child_lt node (Array.mem_of_getElem? hother) child hchild⟩
  have hnodup := (hids.resolve hid rule).of_append_left
  refine ⟨by simpa using h.size_pos, fun node hmem child hchild => ?_,
    fun other node hother child hchild => (hnode other node hother child hchild).1, hnodup⟩
  obtain ⟨other, hother⟩ := Array.getElem?_of_mem hmem
  rw [size_resolve]
  exact (hnode other node hother child hchild).2

end Tree

/-! ## Tasks -/

namespace Task

/-- The children that a task has added, which hang nowhere until their parent is settled. -/
def added : Task → List Nat
  | .expand _ => []
  | .add _ _ children _ => children.map (·.id)

/-- Whether the nodes of a task are nodes of the tree, and its children come after their parent. -/
def Stands (size : Nat) : Task → Prop
  | .expand site => site.id < size
  | .add site _ children _ =>
    site.id < size ∧ ∀ child ∈ children, site.id < child.id ∧ child.id < size

theorem Stands.mono {size larger : Nat} {task : Task} (h : task.Stands size) (hle : size ≤ larger) :
    task.Stands larger := by
  cases task with
  | expand site => exact Nat.lt_of_lt_of_le h hle
  | add site rule children tokens =>
      refine ⟨Nat.lt_of_lt_of_le h.1 hle, fun child hchild => ?_⟩
      exact (h.2 child hchild).imp_right fun hlt => Nat.lt_of_lt_of_le hlt hle

theorem lt_size_of_mem_added {size id : Nat} {agenda : List Task}
    (h : ∀ task ∈ agenda, task.Stands size) (hid : id ∈ agenda.flatMap added) : id < size := by
  obtain ⟨task, htask, hmem⟩ := List.mem_flatMap.1 hid
  cases task with
  | expand site => cases hmem
  | add site rule children tokens =>
      obtain ⟨child, hchild, rfl⟩ := List.mem_map.1 hmem
      exact ((h _ htask).2 child hchild).2

theorem flatMap_added_schedule (strategy : Strategy) (g : Grammar) (child : Site)
    (agenda : List Task) :
    (strategy.schedule g child agenda).flatMap added = agenda.flatMap added := by
  unfold Strategy.schedule
  split
  · cases strategy <;> simp [added]
  · rfl

theorem mem_schedule {g : Grammar} {child : Site} {agenda : List Task} {task : Task}
    (h : task ∈ strategy.schedule g child agenda) : task = .expand child ∨ task ∈ agenda := by
  unfold Strategy.schedule at h
  split at h
  · cases strategy with
    | levelOrder => exact (List.mem_append.1 h).symm.imp_left List.mem_singleton.1
    | depthFirst => exact List.mem_cons.1 h
  · exact .inr h

end Task

namespace Moment

open Run

/-- Whether the tree is an arena. While the derivation goes on, the tasks that are left hold nodes
of the tree, and the children that they have added hang nowhere. -/
def Planted : Moment σ → Prop
  | (.ok agenda, growth) => growth.tree.Arena ∧ growth.tree.Spares (agenda.flatMap Task.added) ∧
      ∀ task ∈ agenda, task.Stands growth.tree.size
  | (.error _, growth) => growth.tree.Arena

theorem Planted.arena {moment : Moment σ} (h : moment.Planted) : moment.2.tree.Arena := by
  obtain ⟨_ | _, _⟩ := moment
  · exact h
  · exact h.1

theorem planted_start (s : Setting) (symbol : String) (source : σ) :
    (start s symbol source).Planted := by
  rw [start]
  split
  · refine ⟨Tree.arena_of_childless rfl, List.nodup_nil, ?_⟩
    exact List.forall_mem_singleton.2 Nat.one_pos
  · have hleaf : (Tree.single symbol).resolve (Site.root symbol).id .leaf =
        .ofNodes [⟨symbol, .leaf⟩] :=
      Tree.resolve_ofNodes [] [] ⟨symbol, .pending⟩ .leaf
    rw [hleaf]
    exact ⟨Tree.arena_of_childless rfl, List.nodup_nil, List.forall_mem_nil _⟩

variable {agenda : List Task} {growth : Growth σ} {later : Moment σ} {site : Site} {rule : Nat}
  {children : List Site} {token : String} {more : List String}

theorem planted_expand (h : Planted (.ok (.expand site :: agenda), growth))
    (hnext : Task.perform s strategy choose agenda (.expand site) growth = some later) :
    later.Planted := by
  obtain ⟨harena, hspares, hstands⟩ := h
  obtain ⟨hsite, hagenda⟩ := List.forall_mem_cons.1 hstands
  rw [Task.perform, bind_apply] at hnext
  cases ho : s.options site.symbol site.depth with
  | error fault =>
      rw [chooseRule_apply_error growth ho] at hnext
      cases hnext
      exact harena
  | ok options =>
      rw [chooseRule_apply_ok growth ho] at hnext
      cases hc : choose site options growth.source with
      | none => simp [hc] at hnext
      | some choice =>
          rw [hc] at hnext
          cases hnext
          exact ⟨harena, hspares,
            List.forall_mem_cons.2 ⟨⟨hsite, List.forall_mem_nil _⟩, hagenda⟩⟩

/-- What a node has as children when it is settled has hung nowhere before. -/
theorem planted_settle (h : Planted (.ok (.add site rule children [] :: agenda), growth))
    (hnext : Task.perform s strategy choose agenda (.add site rule children []) growth =
      some later) : later.Planted := by
  obtain ⟨harena, hspares, hstands⟩ := h
  obtain ⟨⟨hsite, hchildren⟩, hagenda⟩ := List.forall_mem_cons.1 hstands
  rw [Task.perform, bind_apply, settle_apply] at hnext
  cases hnext
  rw [List.flatMap_cons] at hspares
  have hlater : ∀ child ∈ children.map (·.id), site.id < child ∧ child < growth.tree.size :=
    List.forall_mem_map.2 hchildren
  refine ⟨harena.resolve hspares hsite hlater rule, hspares.resolve hsite rule, ?_⟩
  rwa [Tree.size_resolve]

/-- A child that is added is the last node, so it hangs nowhere and comes after its parent. -/
theorem planted_add (h : Planted (.ok (.add site rule children (token :: more) :: agenda), growth))
    (hnext : Task.perform s strategy choose agenda (.add site rule children (token :: more))
      growth = some later) : later.Planted := by
  obtain ⟨harena, hspares, hstands⟩ := h
  obtain ⟨⟨hsite, hchildren⟩, hagenda⟩ := List.forall_mem_cons.1 hstands
  have hstate : Node.children ⟨token, s.stateOf token⟩ = [] := by
    unfold Setting.stateOf
    split <;> rfl
  rw [Task.perform, bind_apply] at hnext
  cases hfits : s.checkSize (growth.tree.size + 1) with
  | error fault =>
      rw [addChild_apply_error site _ token hfits] at hnext
      cases hnext
      exact harena.push hstate
  | ok =>
      rw [addChild_apply_ok site _ token hfits] at hnext
      cases hnext
      refine ⟨harena.push hstate, ?_, fun task htask => ?_⟩
      · have hpush := hspares.push harena
          (fun _ => Task.lt_size_of_mem_added hstands) hstate
        rw [Task.flatMap_added_schedule]
        refine hpush.perm ?_
        simp only [List.flatMap_cons, Task.added, List.map_append, List.map_singleton,
          List.append_assoc, List.singleton_append]
        exact List.perm_middle.symm
      · rw [Tree.size_push]
        have hle := Nat.le_succ growth.tree.size
        rcases Task.mem_schedule htask with rfl | htask
        · exact Nat.lt_succ_self growth.tree.size
        rcases List.mem_cons.1 htask with rfl | htask
        · refine ⟨Nat.lt_succ_of_lt hsite, List.forall_mem_append.2 ⟨fun child hchild => ?_, ?_⟩⟩
          · exact (hchildren child hchild).imp_right Nat.lt_succ_of_lt
          · exact List.forall_mem_singleton.2 ⟨hsite, Nat.lt_succ_self _⟩
        · exact (hagenda task htask).mono hle

theorem planted_perform {task : Task} (h : Planted (.ok (task :: agenda), growth))
    (hnext : task.perform s strategy choose agenda growth = some later) : later.Planted := by
  match task with
  | .expand _ => exact planted_expand h hnext
  | .add _ _ _ [] => exact planted_settle h hnext
  | .add _ _ _ (_ :: _) => exact planted_add h hnext

theorem planted_of_leads {symbol : String} {source : σ} {moment : Moment σ}
    (h : Leads s strategy choose (start s symbol source) moment) : moment.Planted := by
  induction h with
  | refl => exact planted_start s symbol source
  | @tail now later _ hnext ih =>
      obtain ⟨_ | _ | ⟨task, agenda⟩, growth⟩ := now
      · cases hnext
      · cases hnext
      · exact planted_perform ih hnext

end Moment

/-- At every moment of a derivation the tree is an arena, and so it is where the derivation ends, be
it with a tree or with a failure. -/
theorem derivation_keeps_arena (s : Setting) (strategy : Strategy) (choose : Chooser σ)
    (symbol : String) (source : σ) :
    (∀ moment, Moment.Leads s strategy choose (.start s symbol source) moment →
      moment.2.tree.Arena) ∧
    ∀ result after, s.grow strategy choose symbol source = some (result, after) →
      after.tree.Arena := by
  refine ⟨fun moment h => (Moment.planted_of_leads h).arena, fun result after h => ?_⟩
  exact (Moment.planted_of_leads (Setting.leads_of_grow h)).arena

/-- So at every moment and in the end the loops over the tree compute the recursive definitions over
the derivation that hangs on its root. -/
theorem derivation_traversed (s : Setting) (strategy : Strategy) (choose : Chooser σ)
    (symbol : String) (source : σ) {t : Tree}
    (h : (∃ moment, Moment.Leads s strategy choose (.start s symbol source) moment ∧
        moment.2.tree = t) ∨
      ∃ result after, s.grow strategy choose symbol source = some (result, after) ∧
        after.tree = t) :
    (t.visits.map (·.2)).Nodup ∧ (∀ depth id, (depth, id) ∈ t.visits ↔ t.Hangs depth id) ∧
    t.text = String.join ((t.walk.filter (·.2.isPlainLeaf)).map (·.2.symbol)) ∧
    ∃ d, t.Shows 0 d ∧ t.walk.map Tree.bare = Tree.preorder 0 d ∧ t.text = d.text ∧
      t.depth = d.depth := by
  obtain ⟨hmoments, hends⟩ := derivation_keeps_arena s strategy choose symbol source
  have harena : t.Arena := by
    obtain ⟨moment, hleads, rfl⟩ | ⟨result, after, hgrow, rfl⟩ := h
    · exact hmoments moment hleads
    · exact hends result after hgrow
  obtain ⟨d, hshows, hvisits, -, hcovers⟩ := harena.exists_visits_eq
  have hwalk := Tree.map_bare_walk_of_visits_eq hshows hvisits
  exact ⟨hcovers.nodup_visited, fun _ _ => hcovers.mem_iff_hangs,
    (Tree.text_eq t).trans (Tree.join_ownText_eq _), d, hshows, hwalk,
    Tree.text_eq_of_map_bare_walk hwalk, Tree.depth_eq_of_map_bare_walk hwalk⟩

end GrammarSampler
