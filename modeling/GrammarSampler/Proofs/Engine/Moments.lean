import GrammarSampler.Proofs.Engine.Grow
import Mathlib.Logic.Relation

/-!
# Moments of a derivation

Both orders as one machine that takes single steps: it chooses a rule, adds one child, or settles a
node. Its agenda holds the work that is left, and the two orders differ only in where a child that
waits for its rule is put. Whatever a derivation ends with is a moment of the machine, and a limit
of nodes holds at every moment, also of derivations that never end.
-/

namespace GrammarSampler

variable {σ : Type} {s : Setting} {strategy : Strategy} {choose : Chooser σ}

/-! ## The machine -/

inductive Task where
  /-- Choose a rule for a node. -/
  | expand (site : Site)
  /-- Add the children for the remaining tokens of a rule, and settle the node after the last. -/
  | add (site : Site) (rule : Nat) (children : List Site) (tokens : List String)

namespace Strategy

/-- Where a child that has been added stands among the tasks, if it waits for its rule. -/
def schedule (strategy : Strategy) (g : Grammar) (child : Site) (agenda : List Task) : List Task :=
  if g.defines child.symbol then
    match strategy with
    | .levelOrder => agenda ++ [.expand child]
    | .depthFirst => .expand child :: agenda
  else agenda

end Strategy

/-- Performs one step of the first task, and gives the tasks that are left. -/
def Task.perform (s : Setting) (strategy : Strategy) (choose : Chooser σ) (agenda : List Task) :
    Task → Run σ (List Task)
  | .expand site => do
    let rule ← Run.chooseRule s choose site
    return .add site rule [] (s.tokens site.symbol rule) :: agenda
  | .add site rule children [] => do
    Run.settle site.id (.expanded rule (children.map (·.id)))
    return agenda
  | .add site rule children (token :: more) => do
    let child ← Run.addChild s site children.length token
    return strategy.schedule s.grammar child (.add site rule (children ++ [child]) more :: agenda)

/-- The tasks that are left, or why the derivation has stopped, and what has grown so far. -/
abbrev Moment (σ : Type) := Except Failure (List Task) × Growth σ

namespace Moment

def next? (s : Setting) (strategy : Strategy) (choose : Chooser σ) : Moment σ → Option (Moment σ)
  | (.ok (task :: agenda), growth) => task.perform s strategy choose agenda growth
  | (.ok [], _) | (.error _, _) => none

def start (s : Setting) (symbol : String) (source : σ) : Moment σ :=
  if s.grammar.defines symbol then (.ok [.expand (.root symbol)], ⟨.single symbol, source⟩)
  else (.ok [], ⟨(Tree.single symbol).resolve (Site.root symbol).id .leaf, source⟩)

/-- Whether one moment comes after another, or is the same. -/
def Leads (s : Setting) (strategy : Strategy) (choose : Chooser σ) : Moment σ → Moment σ → Prop :=
  Relation.ReflTransGen fun now later => now.next? s strategy choose = some later

end Moment

/-! ## Steps of the orders -/

namespace Run

variable {α β : Type} {agenda : List Task}

/-- Whether the machine gets from an agenda to what a step leaves to do, and in between does to the
tree and to the source what the step does. -/
def Performs (s : Setting) (strategy : Strategy) (choose : Chooser σ) (agenda : List Task)
    (m : Run σ α) (rest : α → List Task) : Prop :=
  ∀ growth result after, m growth = some (result, after) →
    Moment.Leads s strategy choose (.ok agenda, growth) (result.map rest, after)

theorem performs_pure {a : α} {rest : α → List Task} (h : agenda = rest a) :
    Performs s strategy choose agenda (pure a) rest := by
  intro growth result after hrun
  cases hrun
  rw [h]
  exact .refl

theorem performs_endless (rest : α → List Task) :
    Performs s strategy choose agenda endless rest :=
  fun _ _ _ hrun => nomatch hrun

theorem Performs.bind {m : Run σ α} {k : α → Run σ β} {middle : α → List Task}
    {rest : β → List Task} (hm : Performs s strategy choose agenda m middle)
    (hk : ∀ a, Performs s strategy choose (middle a) (k a) rest) :
    Performs s strategy choose agenda (m >>= k) rest := by
  intro growth result after hrun
  obtain ⟨failure, hfirst, rfl⟩ | ⟨a, between, hfirst, hrest⟩ := bind_eq_some_iff.1 hrun
  · exact hm growth _ after hfirst
  · exact (hm growth _ between hfirst).trans (hk a between result after hrest)

/-- A step that the first task begins with is one step of the machine. -/
theorem performs_of_perform {task : Task} {m : Run σ α} {rest : α → List Task}
    (h : task.perform s strategy choose agenda = m >>= fun a => pure (rest a)) :
    Performs s strategy choose (task :: agenda) m rest := by
  intro growth result after hrun
  refine .single ?_
  rw [Moment.next?, h, bind_apply, hrun]
  cases result <;> rfl

theorem performs_chooseRule (site : Site) :
    Performs s strategy choose (.expand site :: agenda) (chooseRule s choose site) fun rule =>
      .add site rule [] (s.tokens site.symbol rule) :: agenda :=
  performs_of_perform rfl

theorem performs_settle (site : Site) (rule : Nat) (children : List Site) :
    Performs s strategy choose (.add site rule children [] :: agenda)
      (settle site.id (.expanded rule (children.map (·.id)))) fun _ => agenda :=
  performs_of_perform rfl

theorem performs_addChild (site : Site) (rule : Nat) (children : List Site) (token : String)
    (more : List String) :
    Performs s strategy choose (.add site rule children (token :: more) :: agenda)
      (addChild s site children.length token) fun child =>
        strategy.schedule s.grammar child (.add site rule (children ++ [child]) more :: agenda) :=
  performs_of_perform rfl

/-- The children of a node are added in turn, and each leaves the tasks behind that its visit does
not perform. -/
theorem performs_addChildren {visit : Site → Run σ Unit} (left : Site → List Task)
    (hvisit : ∀ child task agenda, Performs s strategy choose
      (strategy.schedule s.grammar child (task :: agenda)) (visit child) fun _ =>
        task :: (agenda ++ left child))
    (site : Site) (rule : Nat) (children : List Site) (tokens : List String) (agenda : List Task) :
    Performs s strategy choose (.add site rule children tokens :: agenda)
      (addChildren s visit site children.length tokens) fun more =>
        .add site rule (children ++ more) [] :: (agenda ++ more.flatMap left) := by
  induction tokens generalizing children agenda with
  | nil => exact performs_pure (by simp)
  | cons token tokens ih =>
      refine (performs_addChild site rule children token tokens).bind fun child => ?_
      refine (hvisit child _ agenda).bind fun _ => ?_
      have hrest := ih (children ++ [child]) (agenda ++ left child)
      rw [List.length_append, List.length_singleton] at hrest
      exact hrest.bind fun more => performs_pure (by simp)

end Run

open Run

/-! ## The orders -/

theorem DepthFirst.performs_expand (levels : Nat) (site : Site) (agenda : List Task) :
    Performs s .depthFirst choose (.expand site :: agenda) (expand s choose levels site) fun _ =>
      agenda := by
  induction levels generalizing site agenda with
  | zero => exact performs_endless _
  | succ levels ih =>
      refine (performs_chooseRule site).bind fun rule => ?_
      refine (performs_addChildren (fun _ => []) ?_ site rule [] _ agenda).bind ?_
      · intro child task agenda
        rw [List.append_nil, Strategy.schedule]
        cases s.grammar.defines child.symbol with
        | false => exact performs_pure rfl
        | true => exact ih child (task :: agenda)
      · intro children
        have hnone : children.flatMap (fun _ => ([] : List Task)) = [] := by simp
        rw [List.nil_append, hnone, List.append_nil]
        exact performs_settle site rule children

namespace LevelOrder

theorem flatMap_expand_eq (g : Grammar) (children : List Site) :
    (children.flatMap fun child => if g.defines child.symbol then [Task.expand child] else []) =
      (children.filter (g.defines ·.symbol)).map .expand := by
  induction children with
  | nil => rfl
  | cons child children ih =>
      rw [List.flatMap_cons, ih, List.filter_cons]
      cases g.defines child.symbol <;> rfl

theorem performs_expand (site : Site) (agenda : List Task) :
    Performs s .levelOrder choose (.expand site :: agenda) (expand s choose site) fun next =>
      agenda ++ next.map .expand := by
  refine (performs_chooseRule site).bind fun rule => ?_
  refine (performs_addChildren
    (fun child => if s.grammar.defines child.symbol then [.expand child] else [])
    ?_ site rule [] _ agenda).bind fun children => ?_
  · intro child task agenda
    refine performs_pure ?_
    rw [Strategy.schedule]
    cases s.grammar.defines child.symbol <;> simp
  · rw [List.nil_append, flatMap_expand_eq]
    exact (performs_settle site rule children).bind fun _ => performs_pure rfl

theorem performs_expandLevel (sites : List Site) (agenda : List Task) :
    Performs s .levelOrder choose (sites.map .expand ++ agenda) (expandLevel s choose sites)
      fun next => agenda ++ next.map .expand := by
  induction sites generalizing agenda with
  | nil => exact performs_pure (by simp)
  | cons site more ih =>
      refine (performs_expand site (more.map .expand ++ agenda)).bind fun next => ?_
      have hmore := ih (agenda ++ next.map .expand)
      rw [← List.append_assoc] at hmore
      exact hmore.bind fun rest => performs_pure (by simp)

theorem performs_expandAll (levels : Nat) (sites : List Site) :
    Performs s .levelOrder choose (sites.map .expand) (expandAll s choose levels sites) fun _ =>
      [] := by
  induction levels generalizing sites with
  | zero =>
      cases sites with
      | nil => exact performs_pure rfl
      | cons site more => exact performs_endless _
  | succ levels ih =>
      cases sites with
      | nil => exact performs_pure rfl
      | cons site more =>
          have hlevel := @performs_expandLevel σ s choose (site :: more) []
          rw [List.append_nil] at hlevel
          exact hlevel.bind fun next => ih next

end LevelOrder

/-- A derivation ends in a moment of the machine at which nothing is left to do. -/
theorem Setting.leads_of_grow {start : String} {source : σ} {result : Except Failure Unit}
    {after : Growth σ} (h : s.grow strategy choose start source = some (result, after)) :
    Moment.Leads s strategy choose (.start s start source) (result.map fun _ => [], after) := by
  rw [Moment.start]
  cases hd : s.grammar.defines start with
  | false =>
      rw [grow_of_not_defines hd, settle_apply] at h
      cases h
      exact .refl
  | true =>
      cases strategy with
      | depthFirst =>
          rw [grow_depthFirst hd] at h
          exact DepthFirst.performs_expand s.levels (.root start) [] _ result after h
      | levelOrder =>
          rw [grow_levelOrder hd] at h
          exact LevelOrder.performs_expandAll s.levels [.root start] _ result after h

/-! ## Sizes -/

namespace Run

variable {α β : Type} {limit : Nat}

/-- Whether a step leaves the size of the tree as it is. -/
def KeepsSize (m : Run σ α) : Prop :=
  ∀ growth result after, m growth = some (result, after) → after.tree.size = growth.tree.size

theorem keepsSize_pure (a : α) : KeepsSize (pure a : Run σ α) :=
  fun _ _ _ hrun => by cases hrun; rfl

theorem keepsSize_settle (id : Nat) (state : NodeState) :
    KeepsSize (settle id state : Run σ Unit) := by
  intro growth result after hrun
  rw [settle_apply] at hrun
  cases hrun
  exact Tree.size_resolve _ _ _

theorem keepsSize_chooseRule (site : Site) : KeepsSize (chooseRule s choose site) := by
  intro growth result after hrun
  cases ho : s.options site.symbol site.depth with
  | error fault =>
      rw [chooseRule_apply_error growth ho] at hrun
      cases hrun
      rfl
  | ok options =>
      rw [chooseRule_apply_ok growth ho] at hrun
      obtain ⟨_, -, heq⟩ := Option.map_eq_some_iff.1 hrun
      cases heq
      rfl

/-- Whether a tree is no larger than the limit lets it be: one node is never too many, and the child
that is one too many stops the derivation. -/
def Within (limit : Nat) (result : Except Failure α) (after : Growth σ) : Prop :=
  match result with
  | .ok _ => after.tree.size ≤ max limit 1
  | .error _ => after.tree.size ≤ max limit 1 + 1

theorem Within.size_le {result : Except Failure α} {after : Growth σ}
    (h : Within limit result after) : after.tree.size ≤ max limit 1 + 1 := by
  cases result with
  | error failure => exact h
  | ok a => exact Nat.le_succ_of_le h

/-- Whether a step that begins within the limit ends within it. -/
def Keeps (limit : Nat) (m : Run σ α) : Prop :=
  ∀ growth result after, growth.tree.size ≤ max limit 1 → m growth = some (result, after) →
    Within limit result after

theorem KeepsSize.keeps {m : Run σ α} (h : KeepsSize m) : Keeps limit m := by
  intro growth result after hsize hrun
  rw [← h growth result after hrun] at hsize
  cases result with
  | error failure => exact Nat.le_succ_of_le hsize
  | ok a => exact hsize

theorem Keeps.bind {m : Run σ α} {k : α → Run σ β} (hm : Keeps limit m)
    (hk : ∀ a, Keeps limit (k a)) : Keeps limit (m >>= k) := by
  intro growth result after hsize hrun
  obtain ⟨failure, hfirst, rfl⟩ | ⟨a, middle, hfirst, hrest⟩ := bind_eq_some_iff.1 hrun
  · exact hm growth _ after hsize hfirst
  · exact hk a middle result after (hm growth _ middle hsize hfirst) hrest

theorem keeps_addChild (hlimit : s.nodeLimit = some limit) (site : Site) (index : Nat)
    (token : String) : Keeps limit (addChild s site index token : Run σ Site) := by
  intro growth result after hsize hrun
  cases h : s.checkSize (growth.tree.size + 1) with
  | error fault =>
      rw [addChild_apply_error site index token h] at hrun
      cases hrun
      rw [Within, Tree.size_push]
      exact Nat.succ_le_succ hsize
  | ok =>
      rw [addChild_apply_ok site index token h] at hrun
      cases hrun
      rw [Within, Tree.size_push]
      exact le_max_of_le_left (Setting.fits_iff.1 h limit hlimit)

theorem keeps_perform (hlimit : s.nodeLimit = some limit) (task : Task) (agenda : List Task) :
    Keeps limit (task.perform s strategy choose agenda) := by
  cases task with
  | expand site =>
      exact (keepsSize_chooseRule site).keeps.bind fun _ => (keepsSize_pure _).keeps
  | add site rule children tokens =>
      cases tokens with
      | nil => exact (keepsSize_settle _ _).keeps.bind fun _ => (keepsSize_pure _).keeps
      | cons token more =>
          exact (keeps_addChild hlimit site _ token).bind fun _ => (keepsSize_pure _).keeps

end Run

namespace Moment

theorem within_start (limit : Nat) (s : Setting) (symbol : String) (source : σ) :
    Within limit (start s symbol source).1 (start s symbol source).2 := by
  have hsize : (Tree.single symbol).size ≤ max limit 1 := le_max_right limit 1
  rw [start]
  split
  · exact hsize
  · rw [Within, Tree.size_resolve]
    exact hsize

theorem within_next {limit : Nat} (hlimit : s.nodeLimit = some limit) {now later : Moment σ}
    (h : Within limit now.1 now.2) (hnext : now.next? s strategy choose = some later) :
    Within limit later.1 later.2 := by
  obtain ⟨_ | _ | ⟨task, agenda⟩, growth⟩ := now
  · cases hnext
  · cases hnext
  · exact keeps_perform hlimit task agenda growth later.1 later.2 h hnext

/-- At no moment of a derivation are there more nodes than the limit lets be. -/
theorem within_of_leads {limit : Nat} (hlimit : s.nodeLimit = some limit) {symbol : String}
    {source : σ} {moment : Moment σ}
    (h : Leads s strategy choose (start s symbol source) moment) :
    Within limit moment.1 moment.2 := by
  induction h with
  | refl => exact within_start limit s symbol source
  | tail _ hnext ih => exact within_next hlimit ih hnext

end Moment

end GrammarSampler
