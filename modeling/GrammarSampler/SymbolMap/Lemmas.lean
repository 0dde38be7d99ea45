import GrammarSampler.SymbolMap.Basic

/-!
# Laws of symbol maps

Every operation is described by what a look-up in its result finds, and a map is determined by
its look-ups.
-/

namespace GrammarSampler.SymbolMap

variable {α β : Type}

/-! ## Entries and look-ups -/

theorem lookup_cons_ite (symbol : String) (e : String × α) (l : List (String × α)) :
    (e :: l).lookup symbol = if symbol = e.1 then some e.2 else l.lookup symbol := by
  obtain ⟨k, v⟩ := e
  by_cases h : symbol = k
  · simp [h]
  · have hb : (symbol == k) = false := by simpa using h
    simp [List.lookup_cons, hb, h]

theorem lookup_eq_none_of_lt {symbol : String} {l : List (String × α)}
    (h : ∀ e ∈ l, symbol < e.1) : l.lookup symbol = none := by
  rw [List.lookup_eq_none_iff]
  intro e he
  have hne : symbol ≠ e.1 := fun heq => String.lt_irrefl e.1 (heq ▸ h e he)
  simpa using hne

theorem lookup_upsert (symbol other : String) (f : Option α → α) :
    {l : List (String × α)} → l.Pairwise (fun a b => a.1 < b.1) →
      (upsert symbol f l).lookup other =
        if other = symbol then some (f (l.lookup symbol)) else l.lookup other
  | [], _ => by simp [upsert, lookup_cons_ite]
  | (key, value) :: rest, hs => by
    have hr := List.pairwise_cons.1 hs
    unfold upsert
    split
    case isTrue hlt =>
      have hall : ∀ e ∈ (key, value) :: rest, symbol < e.1 := by
        intro e he
        rcases List.mem_cons.1 he with he | he
        · simpa [he] using hlt
        · exact String.lt_trans hlt (hr.1 e he)
      rw [lookup_eq_none_of_lt hall, lookup_cons_ite]
    case isFalse hlt =>
      split
      case isTrue heq =>
        subst heq
        by_cases h : other = symbol <;> simp [lookup_cons_ite, h]
      case isFalse heq =>
        simp only [lookup_cons_ite, lookup_upsert symbol other f hr.2, heq, ↓reduceIte]
        by_cases hk : other = key
        · have hne : key ≠ symbol := fun h => heq h.symm
          simp [hk, hne]
        · simp [hk]

@[simp]
theorem get?_empty (symbol : String) : (∅ : SymbolMap α).get? symbol = none := rfl

theorem get?_alter (m : SymbolMap α) (symbol other : String) (f : Option α → α) :
    (m.alter symbol f).get? other =
      if other = symbol then some (f (m.get? symbol)) else m.get? other :=
  lookup_upsert symbol other f m.sorted

theorem get?_insert (m : SymbolMap α) (symbol other : String) (value : α) :
    (m.insert symbol value).get? other = if other = symbol then some value else m.get? other :=
  get?_alter m symbol other _

theorem lookup_map (f : String → α → β) (symbol : String) :
    (l : List (String × α)) →
      (l.map fun e => (e.1, f e.1 e.2)).lookup symbol = (l.lookup symbol).map (f symbol)
  | [] => rfl
  | e :: rest => by
    rw [List.map_cons, lookup_cons_ite, lookup_cons_ite, lookup_map f symbol rest]
    by_cases h : symbol = e.1 <;> simp [h]

@[simp]
theorem get?_map (f : String → α → β) (m : SymbolMap α) (symbol : String) :
    (m.map f).get? symbol = (m.get? symbol).map (f symbol) :=
  lookup_map f symbol m.entries

theorem mem_entries_iff {m : SymbolMap α} {symbol : String} {value : α} :
    (symbol, value) ∈ m.entries ↔ m.get? symbol = some value := by
  obtain ⟨l, hs⟩ := m
  show (symbol, value) ∈ l ↔ l.lookup symbol = some value
  induction l with
  | nil => simp
  | cons e rest ih =>
    have hr := List.pairwise_cons.1 hs
    rw [List.mem_cons, ih hr.2, lookup_cons_ite]
    obtain ⟨k, v⟩ := e
    by_cases h : symbol = k
    · have hn : rest.lookup symbol = none := lookup_eq_none_of_lt (h ▸ hr.1)
      subst h
      simp [hn, eq_comm]
    · simp [h]

theorem mem_keys_iff {m : SymbolMap α} {symbol : String} :
    symbol ∈ m.keys ↔ m.contains symbol = true := by
  simp only [keys, contains, List.mem_map, Option.isSome_iff_exists]
  exact ⟨fun ⟨e, he, hk⟩ => ⟨e.2, mem_entries_iff.1 (hk ▸ he)⟩,
    fun ⟨v, hv⟩ => ⟨(symbol, v), mem_entries_iff.2 hv, rfl⟩⟩

/-! ## Order and equality -/

theorem keys_sorted (m : SymbolMap α) : m.keys.Pairwise (· < ·) := List.pairwise_map.2 m.sorted

theorem ext_get? {m n : SymbolMap α} (h : ∀ symbol, m.get? symbol = n.get? symbol) : m = n := by
  refine ext_entries (List.Perm.eq_of_pairwise ?_ m.sorted n.sorted ?_)
  · intro a b _ _ hab hba
    exact absurd (String.lt_trans hab hba) (String.lt_irrefl _)
  · have nodup (k : SymbolMap α) : k.entries.Nodup := by
      refine k.sorted.imp ?_
      rintro a b hlt rfl
      exact String.lt_irrefl _ hlt
    refine (List.perm_ext_iff_of_nodup (nodup m) (nodup n)).2 fun e => ?_
    exact mem_entries_iff.trans ((h e.1) ▸ mem_entries_iff.symm)

/-! ## Maps from pairs -/

theorem contains_foldl_insert {symbol : String} {pairs : List (String × α)} {m : SymbolMap α} :
    (pairs.foldl (fun m e => m.insert e.1 e.2) m).contains symbol = true ↔
      m.contains symbol = true ∨ symbol ∈ pairs.map (·.1) := by
  induction pairs generalizing m with
  | nil => simp
  | cons e more ih =>
    have hinsert : (m.insert e.1 e.2).contains symbol = true ↔
        symbol = e.1 ∨ m.contains symbol = true := by
      rw [contains, contains, get?_insert]
      by_cases h : symbol = e.1 <;> simp [h]
    rw [List.foldl_cons, ih, hinsert, List.map_cons, List.mem_cons, or_assoc, or_left_comm]

theorem mem_keys_ofList {symbol : String} {pairs : List (String × α)} :
    symbol ∈ (ofList pairs).keys ↔ symbol ∈ pairs.map (·.1) := by
  rw [mem_keys_iff, ofList, contains_foldl_insert]
  exact or_iff_right Bool.false_ne_true

/-- Of pairs with distinct symbols each counts. -/
theorem get?_foldl_insert {symbol : String} {pairs : List (String × α)} {m : SymbolMap α}
    (h : (pairs.map (·.1)).Nodup) :
    (pairs.foldl (fun m e => m.insert e.1 e.2) m).get? symbol =
      (pairs.lookup symbol).or (m.get? symbol) := by
  induction pairs generalizing m with
  | nil => rfl
  | cons e more ih =>
    have hnodup := List.nodup_cons.1 h
    rw [List.foldl_cons, ih hnodup.2, get?_insert, lookup_cons_ite]
    by_cases heq : symbol = e.1
    · have hnone : more.lookup symbol = none := by
        rw [List.lookup_eq_none_iff]
        intro d hd
        have hne : symbol ≠ d.1 := fun hsame =>
          hnodup.1 (List.mem_map.2 ⟨d, hd, hsame.symm.trans heq⟩)
        simpa using hne
      rw [if_pos heq, if_pos heq, hnone, Option.none_or, Option.some_or]
    · rw [if_neg heq, if_neg heq]

theorem get?_ofList {symbol : String} {pairs : List (String × α)} (h : (pairs.map (·.1)).Nodup) :
    (ofList pairs).get? symbol = pairs.lookup symbol := by
  rw [ofList, get?_foldl_insert h, get?_empty, Option.or_none]

theorem upsert_eq_concat {symbol : String} {f : Option α → α} {l : List (String × α)}
    (h : ∀ e ∈ l, e.1 < symbol) : upsert symbol f l = l ++ [(symbol, f none)] := by
  induction l with
  | nil => rfl
  | cons e rest ih =>
    have hlt : e.1 < symbol := h e List.mem_cons_self
    have hne : symbol ≠ e.1 := fun heq => String.lt_irrefl e.1 (heq ▸ hlt)
    have hrest := ih fun d hd => h d (List.mem_cons_of_mem e hd)
    rw [upsert, if_neg (fun hgt => String.lt_irrefl _ (String.lt_trans hlt hgt)), if_neg hne, hrest,
      List.cons_append]

/-- Pairs that go on in increasing order are put at the end. -/
theorem entries_foldl_insert {pairs : List (String × α)} {m : SymbolMap α}
    (h : (m.entries ++ pairs).Pairwise fun a b => a.1 < b.1) :
    (pairs.foldl (fun m e => m.insert e.1 e.2) m).entries = m.entries ++ pairs := by
  induction pairs generalizing m with
  | nil => exact (List.append_nil _).symm
  | cons e more ih =>
    have hlast : ∀ d ∈ m.entries, d.1 < e.1 := fun d hd =>
      (List.pairwise_append.1 h).2.2 d hd e List.mem_cons_self
    have hinsert : (m.insert e.1 e.2).entries = m.entries ++ [e] := upsert_eq_concat hlast
    rw [List.append_cons, ← hinsert] at h
    rw [List.foldl_cons, ih h, hinsert, List.append_assoc, List.singleton_append]

/-- A map is that of its entries. -/
theorem ofList_entries (m : SymbolMap α) : ofList m.entries = m :=
  ext_entries (entries_foldl_insert (m := ∅) m.sorted)

end GrammarSampler.SymbolMap
