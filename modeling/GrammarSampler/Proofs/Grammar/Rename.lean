import GrammarSampler.Grammar.Lemmas
import Mathlib

/-!
# Other names and other orders

A grammar may be written with other names, or with the rules of its symbols in another order. More
generally two grammars may have the same rules for some symbols, up to a change of names.
-/

namespace GrammarSampler

def Rule.rename (r : String → String) (rule : Rule) : Rule := ⟨rule.tokens.map r⟩

namespace Grammar

variable {g g' : Grammar} {r : String → String} {p : String → Prop} {start symbol : String}

/-! ## Names -/

/-- The grammar with all its keys and tokens renamed. -/
def rename (r : String → String) (g : Grammar) : Grammar :=
  ⟨.ofList (g.rules.entries.map fun entry => (r entry.1, entry.2.map (Rule.rename r)))⟩

theorem lookup_map_of_injective {α β : Type} (hr : Function.Injective r) (f : α → β)
    (symbol : String) (l : List (String × α)) :
    (l.map fun entry => (r entry.1, f entry.2)).lookup (r symbol) = (l.lookup symbol).map f := by
  induction l with
  | nil => rfl
  | cons entry more ih =>
      rw [List.map_cons, SymbolMap.lookup_cons_ite, SymbolMap.lookup_cons_ite, ih]
      by_cases h : symbol = entry.1
      · rw [if_pos h, if_pos (congrArg r h), Option.map_some]
      · rw [if_neg h, if_neg fun heq => h (hr heq)]

theorem symbols_nodup (g : Grammar) : g.symbols.Nodup := by
  refine g.symbols_sorted.imp ?_
  rintro symbol _ hlt rfl
  exact String.lt_irrefl symbol hlt

theorem get?_rename (hr : Function.Injective r) (g : Grammar) (symbol : String) :
    (g.rename r).rules.get? (r symbol) =
      (g.rules.get? symbol).map (List.map (Rule.rename r)) := by
  have hkeys : (g.rules.entries.map fun entry => (r entry.1, entry.2.map (Rule.rename r))).map
      (·.1) = g.symbols.map r := by
    rw [symbols, SymbolMap.keys, List.map_map, List.map_map]
    rfl
  rw [rename, SymbolMap.get?_ofList (hkeys ▸ g.symbols_nodup.map hr)]
  exact lookup_map_of_injective hr _ symbol g.rules.entries

/-! ## Correspondence -/

/--
Whether `g'` has under new names what `g` has, as far as symbols go of which `p` holds: it holds of
all that their rules lead to.
-/
structure Corresponds (g g' : Grammar) (r : String → String) (p : String → Prop) : Prop where
  get? : ∀ symbol, p symbol →
    g'.rules.get? (r symbol) = (g.rules.get? symbol).map (List.map (Rule.rename r))
  closed : ∀ symbol, p symbol → ∀ rule ∈ g.rulesOf symbol, ∀ token ∈ rule.tokens, p token

theorem Corresponds.rulesOf (h : g.Corresponds g' r p) (hp : p symbol) :
    g'.rulesOf (r symbol) = (g.rulesOf symbol).map (Rule.rename r) := by
  rw [Grammar.rulesOf, h.get? symbol hp, Grammar.rulesOf]
  cases g.rules.get? symbol <;> rfl

theorem Corresponds.defines (h : g.Corresponds g' r p) (hp : p symbol) :
    g'.defines (r symbol) = g.defines symbol := by
  rw [Grammar.defines, SymbolMap.contains, h.get? symbol hp, Option.isSome_map]
  rfl

theorem corresponds_rename (hr : Function.Injective r) (g : Grammar) :
    g.Corresponds (g.rename r) r fun _ => True where
  get? symbol _ := get?_rename hr g symbol
  closed _ _ _ _ _ _ := trivial

theorem corresponds_of_agree
    (h : ∀ symbol, g.Reaches start symbol → g.rules.get? symbol = g'.rules.get? symbol) :
    g.Corresponds g' id (g.Reaches start) where
  get? symbol hp := by
    have hid : Rule.rename id = id := funext fun rule => by rw [Rule.rename, List.map_id]; rfl
    rw [hid, List.map_id_fun, Option.map_id]
    exact (h symbol hp).symm
  closed _ hp _ hrule _ htoken := hp.step hrule htoken

/-! ## The order of rules -/

/-- The items at the given places, in the order of the places. -/
def picked {α : Type} (places : List Nat) (items : List α) : List α :=
  places.filterMap fun place => items[place]?

/-- The grammar that has at each place of a symbol the rule that `order` names for it. -/
def reorder (order : String → List Nat) (g : Grammar) : Grammar :=
  ⟨g.rules.map fun symbol rules => picked (order symbol) rules⟩

/-- Whether `order` names every rule of every symbol once. -/
def Permutes (order : String → List Nat) (g : Grammar) : Prop :=
  ∀ symbol, g.defines symbol = true →
    (order symbol).Perm (List.range (g.rulesOf symbol).length)

theorem picked_nil {α : Type} (places : List Nat) : picked places ([] : List α) = [] :=
  List.filterMap_eq_nil_iff.2 fun _ _ => rfl

theorem picked_map {α β : Type} (places : List Nat) (f : α → β) (items : List α) :
    picked places (items.map f) = (picked places items).map f := by
  simp only [picked, List.getElem?_map, List.map_filterMap]

theorem picked_range {α : Type} (items : List α) :
    picked (List.range items.length) items = items := by
  induction items with
  | nil => rfl
  | cons item more ih =>
      rw [List.length_cons, List.range_succ_eq_map, picked, List.filterMap_cons, List.filterMap_map]
      exact congrArg (item :: ·) ih

theorem picked_perm {α : Type} {places : List Nat} {items : List α}
    (h : places.Perm (List.range items.length)) : (picked places items).Perm items :=
  (h.filterMap _).trans (.of_eq (picked_range items))

theorem rulesOf_reorder (order : String → List Nat) (g : Grammar) (symbol : String) :
    (g.reorder order).rulesOf symbol = picked (order symbol) (g.rulesOf symbol) := by
  rw [Grammar.rulesOf, reorder, SymbolMap.get?_map, Grammar.rulesOf]
  cases g.rules.get? symbol with
  | none => exact (picked_nil _).symm
  | some rules => rfl

theorem rulesOf_reorder_perm {order : String → List Nat} (h : g.Permutes order)
    (symbol : String) : ((g.reorder order).rulesOf symbol).Perm (g.rulesOf symbol) := by
  rw [rulesOf_reorder]
  cases hd : g.defines symbol with
  | true => exact picked_perm (h symbol hd)
  | false => rw [rulesOf_eq_nil_of_not_defines hd, picked_nil]

end Grammar

end GrammarSampler
