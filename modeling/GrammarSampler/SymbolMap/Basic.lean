/-!
# Finite maps keyed by symbols

A map is the list of its entries in increasing order of the key, so every listing of a map is in
that order and two maps with the same entries are equal. Keys compare by code point.
-/

namespace GrammarSampler

/-- A finite map from symbols to values, with at most one entry for each symbol. -/
structure SymbolMap (α : Type) where
  entries : List (String × α)
  sorted : entries.Pairwise (fun a b => a.1 < b.1)

namespace SymbolMap

variable {α β : Type}

theorem ext_entries {m n : SymbolMap α} (h : m.entries = n.entries) : m = n := by
  cases m; cases n; cases h; rfl

instance [DecidableEq α] : DecidableEq (SymbolMap α) := fun m n =>
  decidable_of_iff (m.entries = n.entries) ⟨ext_entries, fun h => h ▸ rfl⟩

/-! ## Listing -/

def keys (m : SymbolMap α) : List String := m.entries.map (·.1)

def values (m : SymbolMap α) : List α := m.entries.map (·.2)

def size (m : SymbolMap α) : Nat := m.entries.length

def isEmpty (m : SymbolMap α) : Bool := m.entries.isEmpty

/-! ## Looking up -/

def get? (m : SymbolMap α) (symbol : String) : Option α := m.entries.lookup symbol

def contains (m : SymbolMap α) (symbol : String) : Bool := (m.get? symbol).isSome

/-! ## Changing -/

protected def empty : SymbolMap α := ⟨[], .nil⟩

instance : EmptyCollection (SymbolMap α) := ⟨SymbolMap.empty⟩

instance : Inhabited (SymbolMap α) := ⟨∅⟩

/-- Puts `f` of the present value at `symbol`, in its place in the order. -/
def upsert (symbol : String) (f : Option α → α) : List (String × α) → List (String × α)
  | [] => [(symbol, f none)]
  | (key, value) :: rest =>
    if symbol < key then (symbol, f none) :: (key, value) :: rest
    else if symbol = key then (key, f (some value)) :: rest
    else (key, value) :: upsert symbol f rest

theorem mem_upsert_key {symbol : String} {f : Option α → α} {e : String × α} :
    {l : List (String × α)} → e ∈ upsert symbol f l → e.1 = symbol ∨ ∃ d ∈ l, d.1 = e.1
  | [], h => by simp only [upsert, List.mem_singleton] at h; simp [h]
  | (key, value) :: rest, h => by
    unfold upsert at h
    split at h
    · rcases List.mem_cons.1 h with h | h
      · simp [h]
      · exact .inr ⟨e, h, rfl⟩
    · split at h
      · rcases List.mem_cons.1 h with h | h
        · exact .inr ⟨(key, value), by simp, by simp [h]⟩
        · exact .inr ⟨e, by simp [h], rfl⟩
      · rcases List.mem_cons.1 h with h | h
        · exact .inr ⟨e, by simp [h], rfl⟩
        · rcases mem_upsert_key h with h | ⟨d, hd, he⟩
          · exact .inl h
          · exact .inr ⟨d, by simp [hd], he⟩

theorem sorted_upsert (symbol : String) (f : Option α → α) :
    {l : List (String × α)} → l.Pairwise (fun a b => a.1 < b.1) →
      (upsert symbol f l).Pairwise (fun a b => a.1 < b.1)
  | [], _ => by simp [upsert]
  | (key, value) :: rest, h => by
    have hr := List.pairwise_cons.1 h
    unfold upsert
    split
    case isTrue hlt =>
      refine List.pairwise_cons.2 ⟨fun e he => ?_, h⟩
      rcases List.mem_cons.1 he with he | he
      · simpa [he] using hlt
      · exact String.lt_trans hlt (hr.1 e he)
    case isFalse hlt =>
      split
      case isTrue heq => exact List.pairwise_cons.2 ⟨hr.1, hr.2⟩
      case isFalse heq =>
        refine List.pairwise_cons.2 ⟨fun e he => ?_, sorted_upsert symbol f hr.2⟩
        rcases mem_upsert_key he with he | ⟨d, hd, he⟩
        · have : key ≤ symbol := Std.not_lt.1 hlt
          have : key < symbol := Std.lt_of_le_of_ne this (fun h => heq h.symm)
          simpa [he] using this
        · simpa [← he] using hr.1 d hd

def alter (m : SymbolMap α) (symbol : String) (f : Option α → α) : SymbolMap α :=
  ⟨upsert symbol f m.entries, sorted_upsert symbol f m.sorted⟩

/-- The map that has `value` at `symbol`, in place of any earlier value. -/
def insert (m : SymbolMap α) (symbol : String) (value : α) : SymbolMap α :=
  m.alter symbol fun _ => value

/-- The map of the given pairs; of two pairs with one symbol the later counts. -/
def ofList (pairs : List (String × α)) : SymbolMap α :=
  pairs.foldl (fun m e => m.insert e.1 e.2) ∅

def map (f : String → α → β) (m : SymbolMap α) : SymbolMap β :=
  ⟨m.entries.map fun e => (e.1, f e.1 e.2), List.pairwise_map.2 m.sorted⟩

end SymbolMap

end GrammarSampler
