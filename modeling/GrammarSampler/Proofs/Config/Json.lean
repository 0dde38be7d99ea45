import GrammarSampler.Proofs.Grammar.Json
import GrammarSampler.Proofs.Json.Compact
import GrammarSampler.Sampler
import Mathlib

/-!
# Configurations that are read back

A configuration is read back from its JSON text. Where only some of its fields are written, in
whatever order and among members of other names, just these are taken, and the other fields have
their usual values.
-/

namespace GrammarSampler

namespace Json

theorem natural?_nat {n : Nat} (h : n < 2 ^ 64) : (nat n).natural? = some n := by
  have hdigits : (Nat.toDigits 10 n).all Char.isDigit = true :=
    List.all_eq_true.2 fun _ hc => Nat.isDigit_of_mem_toDigits (by decide) (by decide) hc
  have hlimit : n < 1 <<< 64 := h
  rw [nat, natural?, Number.natural?]
  simp only [hdigits, if_true, Nat.ofDigitChars_ten_toDigits]
  exact Option.filter_eq_some_iff.2 ⟨rfl, decide_eq_true hlimit⟩

end Json

namespace Config

variable {c base : Config} {field : Field} {fields : List Field} {name : String} {value : Json}
  {members : List (String × Json)}

/-! ## Fields -/

theorem Field.ofName?_name (field : Field) : ofName? field.name = some field := by
  cases field <;> rfl

theorem Field.ofName?_eq_none (h : ∀ field : Field, name ≠ field.name) : ofName? name = none := by
  rw [ofName?, List.find?_eq_none]
  intro field _ hname
  exact h field (beq_iff_eq.1 hname).symm

theorem Field.mem_all (field : Field) : field ∈ all := by
  cases field <;> decide

/-- Whether the numbers of a configuration fit in words of 64 bits. -/
structure Fits (c : Config) : Prop where
  maxDepth : c.maxDepth < 2 ^ 64
  nodeLimit : ∀ limit, c.nodeLimit = some limit → limit < 2 ^ 64

/-- The configuration `base` with the values that `c` has for some fields. -/
def withFields (base c : Config) (fields : List Field) : Config where
  startSymbol := if .startSymbol ∈ fields then c.startSymbol else base.startSymbol
  maxDepth := if .maxDepth ∈ fields then c.maxDepth else base.maxDepth
  strategy := if .strategy ∈ fields then c.strategy else base.strategy
  nodeLimit := if .nodeLimit ∈ fields then c.nodeLimit else base.nodeLimit
  strict := if .strict ∈ fields then c.strict else base.strict

theorem withFields_nil (base c : Config) : base.withFields c [] = base := by
  simp [withFields]

theorem withFields_all (base c : Config) : base.withFields c Field.all = c := by
  simp [withFields, Field.mem_all]

theorem withFields_cons (base c : Config) (field : Field) (fields : List Field) :
    (base.withFields c [field]).withFields c fields = base.withFields c (field :: fields) := by
  simp only [withFields, List.mem_cons, List.not_mem_nil, or_false, mk.injEq]
  refine ⟨?_, ?_, ?_, ?_, ?_⟩ <;> split_ifs <;> tauto

/-! ## Values of fields -/

theorem ofJson?_strategy (strategy : Strategy) :
    Strategy.ofJson? strategy.toJson = some strategy :=
  Strategy.ofName?_name strategy

theorem limitOfJson?_valueOf (h : c.Fits) :
    limitOfJson? (c.valueOf .nodeLimit) = some c.nodeLimit := by
  rw [valueOf]
  cases hc : c.nodeLimit with
  | none => rfl
  | some limit => exact congrArg (Option.map some) (Json.natural?_nat (h.nodeLimit limit hc))

/-- The value that is written for a field is read as that value. -/
theorem set?_valueOf (h : c.Fits) (base : Config) (field : Field) :
    base.set? field (c.valueOf field) = some (base.withFields c [field]) := by
  cases field with
  | startSymbol => simp [set?, valueOf, Json.text, Json.text?, withFields]
  | maxDepth => simp [set?, valueOf, Json.natural?_nat h.maxDepth, withFields]
  | strategy => simp [set?, valueOf, ofJson?_strategy, withFields]
  | nodeLimit => simp [set?, limitOfJson?_valueOf h, withFields]
  | strict => simp [set?, valueOf, Json.bool?, withFields]

/-! ## Members -/

/-- Whether the members of an object are the given fields of `c`, in this order, and among them any
members whose names are not names of fields. -/
inductive Spells (c : Config) : List Field → List (String × Json) → Prop
  | nil : Spells c [] []
  | field (field : Field) {fields : List Field} {members : List (String × Json)}
      (hmore : Spells c fields members) :
      Spells c (field :: fields) ((field.name, c.valueOf field) :: members)
  | other {name : String} (value : Json) {fields : List Field} {members : List (String × Json)}
      (hname : ∀ field : Field, name ≠ field.name) (hmore : Spells c fields members) :
      Spells c fields ((name, value) :: members)

theorem spells_all (c : Config) :
    c.Spells Field.all (Field.all.map fun field => (field.name, c.valueOf field)) :=
  .field _ (.field _ (.field _ (.field _ (.field _ .nil))))

theorem setMembers?_other {given : List Field} (hname : ∀ field : Field, name ≠ field.name)
    (value : Json) (members : List (String × Json)) :
    base.setMembers? given ((name, value) :: members) = base.setMembers? given members := by
  rw [setMembers?, Field.ofName?_eq_none hname]

theorem setMembers?_field {given : List Field} (h : c.Fits) (hfield : field ∉ given)
    (members : List (String × Json)) :
    base.setMembers? given ((field.name, c.valueOf field) :: members) =
      (base.withFields c [field]).setMembers? (field :: given) members := by
  rw [setMembers?, Field.ofName?_name]
  simp only [if_neg hfield, set?_valueOf h, Option.bind_some]

/-- Members are read in turn: the fields of `c` are taken as long as none comes twice, and all else
is passed over. -/
theorem setMembers?_of_spells {given : List Field} (h : c.Fits) (hspells : c.Spells fields members)
    (hnodup : fields.Nodup) (hgiven : ∀ field ∈ fields, field ∉ given) :
    base.setMembers? given members = some (base.withFields c fields) := by
  induction hspells generalizing base given with
  | nil => rw [withFields_nil, setMembers?]
  | @field field fields members _ ih =>
      obtain ⟨hnew, hnodup⟩ := List.nodup_cons.1 hnodup
      obtain ⟨hfield, hfields⟩ := List.forall_mem_cons.1 hgiven
      have hmore : ∀ other ∈ fields, other ∉ field :: given := fun other hother =>
        List.not_mem_cons_of_ne_of_not_mem (ne_of_mem_of_not_mem hother hnew) (hfields other hother)
      rw [setMembers?_field h hfield, ih hnodup hmore, withFields_cons]
  | other value hname _ ih => rw [setMembers?_other hname, ih hnodup hgiven]

theorem ofJson?_record_of_spells (h : c.Fits) (hspells : c.Spells fields members)
    (hnodup : fields.Nodup) :
    ofJson? (.record members) = some (usual.withFields c fields) := by
  have hmembers := Json.members?_record members
  rw [Json.record] at hmembers ⊢
  rw [ofJson?, hmembers, Option.bind_some]
  exact setMembers?_of_spells h hspells hnodup fun _ _ => List.not_mem_nil

theorem ofJsonText_of_parse? {source : String} (h : c.Fits) (hspells : c.Spells fields members)
    (hnodup : fields.Nodup) (hparse : Json.parse? source = some (.record members)) :
    ofJsonText source = .ok (usual.withFields c fields) := by
  rw [ofJsonText, hparse, Option.bind_some, ofJson?_record_of_spells h hspells hnodup]

/-! ## Round trip -/

/-- A configuration whose numbers fit in words of 64 bits is read back from its JSON text. From an
object of some of its fields, each once, in any order and among any members of other names, the
given fields are read, and the others have their usual values; so it is from the text of the object
on one line, over several lines, or spelt in any other way. -/
theorem ofJsonText_fields (c : Config) (h : c.Fits) :
    ofJsonText c.jsonText = .ok c ∧
    ∀ fields members, fields.Nodup → c.Spells fields members →
      ofJsonText (Json.record members).compact = .ok (usual.withFields c fields) ∧
      ofJsonText (Json.record members).pretty = .ok (usual.withFields c fields) ∧
      ∀ source, Json.parse? source = some (.record members) →
        ofJsonText source = .ok (usual.withFields c fields) := by
  constructor
  · have hread := ofJsonText_of_parse? h c.spells_all (by decide) (Json.parse?_compact _)
    rwa [withFields_all] at hread
  · intro fields members hnodup hspells
    exact ⟨ofJsonText_of_parse? h hspells hnodup (Json.parse?_compact _),
      ofJsonText_of_parse? h hspells hnodup (Json.parse?_pretty _),
      fun source => ofJsonText_of_parse? h hspells hnodup⟩

/-- A configuration with the largest numbers, and with a quote and a line break in its symbol. -/
def largest : Config := ⟨"<\x22s\n>", 2 ^ 64 - 1, .depthFirst, some (2 ^ 64 - 1), true⟩

/-- Two fields among members of other names, of which one holds an object of such a field. -/
def largestMembers : List (String × Json) :=
  [("seed", .array [.object [(some "strict", .null)], .string none]),
    ("node_limit", largest.valueOf .nodeLimit), ("Strict", .bool false),
    ("start_symbol", largest.valueOf .startSymbol)]

theorem ofJsonText_fields_largest : largest.Fits ∧ ofJsonText largest.jsonText = .ok largest ∧
    ofJsonText (Json.record largestMembers).compact =
      .ok ⟨"<\x22s\n>", 10, .levelOrder, some (2 ^ 64 - 1), false⟩ := by
  have hfits : largest.Fits := ⟨by decide, fun limit h => by cases h; decide⟩
  have hspells : largest.Spells [.nodeLimit, .startSymbol] largestMembers := by
    refine .other _ ?_ (.field _ (.other _ ?_ (.field _ .nil))) <;>
      intro field <;> cases field <;> decide
  obtain ⟨hread, hfields⟩ := ofJsonText_fields largest hfits
  exact ⟨hfits, hread, (hfields _ _ (by decide) hspells).1⟩

end Config

end GrammarSampler
