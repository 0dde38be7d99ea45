import GrammarSampler.Proofs.Listing.Broken
import Mathlib.Data.List.Forall2

/-!
# Listings laid out anew

However the rules of a listing are laid out, with blank lines and comments anywhere, it is read as
the same grammar.
-/

namespace GrammarSampler

namespace Listing

variable {plain lines : List (List Char)}

/-! ## Layouts of listings -/

/-- Whether a text is a listing of the rules in turn, laid out in any way. -/
def LaysOut (source : String) (pairs : List (String × Rule)) : Prop :=
  ∃ broken, List.Forall₂ (fun pair => Broken (chunks pair.1 pair.2)) pairs broken ∧
    Spaced broken.flatten (Text.lines source.toList)

theorem Spaced.exists_append {first second : List (List Char)}
    (h : Spaced (first ++ second) lines) :
    ∃ before after, lines = before ++ after ∧ Spaced first before ∧ Spaced second after := by
  generalize hplain : first ++ second = plain at h
  induction h generalizing first with
  | nil =>
      obtain ⟨rfl, rfl⟩ := List.append_eq_nil_iff.1 hplain
      exact ⟨[], [], rfl, .nil, .nil⟩
  | idle hidle h ih =>
      obtain ⟨before, after, rfl, hfirst, hsecond⟩ := ih hplain
      exact ⟨_ :: before, after, rfl, .idle hidle hfirst, hsecond⟩
  | padded hbefore hafter h ih =>
      cases first with
      | nil =>
          subst hplain
          exact ⟨[], _, rfl, .nil, .padded hbefore hafter h⟩
      | cons line first =>
          obtain ⟨rfl, hmore⟩ := List.cons.inj hplain
          obtain ⟨before, after, rfl, hfirst, hsecond⟩ := ih hmore
          exact ⟨_ :: before, after, rfl, .padded hbefore hafter hfirst, hsecond⟩

theorem layout_of_spaced {pairs : List (String × Rule)} {broken : List (List (List Char))}
    (hkeys : ∀ pair ∈ pairs, IsKey pair.1)
    (hbroken : List.Forall₂ (fun pair => Broken (chunks pair.1 pair.2)) pairs broken)
    (h : Spaced broken.flatten lines) (n : Nat) :
    (layout none n lines).unclosed = none ∧
      (layout none n lines).closed.map Block.read = pairs.map .ok := by
  induction hbroken generalizing lines n with
  | nil =>
      rw [layout_idle h]
      exact ⟨rfl, rfl⟩
  | @cons pair first pairs broken hpair hbroken ih =>
      -- the lines up to the closing bracket of the first rule, and all others
      obtain ⟨hkey, hkeys⟩ := List.forall_mem_cons.1 hkeys
      obtain ⟨before, after, rfl, hfirst, hrest⟩ := Spaced.exists_append h
      obtain ⟨b, hlayout, hread⟩ := exists_layout_of_broken hkey hpair hfirst n
      obtain ⟨hunclosed, hclosed⟩ := ih hkeys hrest (n + before.length)
      rw [layout_append hlayout]
      refine ⟨hunclosed, ?_⟩
      rw [List.singleton_append, List.map_cons, hread, hclosed, List.map_cons]

/-! ## The plain layout -/

/-- The parts on one line. -/
def spell : List Chunk → List Char
  | [] => []
  | [p] => p.text
  | p :: more => p.text ++ p.glue ++ spell more

theorem broken_spell : (ps : List Chunk) → ps ≠ [] → Broken ps [spell ps]
  | [], h => absurd rfl h
  | [p], _ => .last p
  | _ :: q :: more, _ => .same (broken_spell (q :: more) (List.cons_ne_nil _ _))

theorem spell_bodyChunks : (list : List String) → spell (bodyChunks list) = writeBody list ++ [']']
  | [] => rfl
  | [token] => by simp [bodyChunks, spell, Chunk.glue, writeBody]
  | token :: next :: more => by
      obtain ⟨p, ps, hparts⟩ := List.exists_cons_of_ne_nil (bodyChunks_ne_nil (next :: more))
      have hmore := spell_bodyChunks (next :: more)
      rw [hparts] at hmore
      simp [bodyChunks, hparts, spell, Chunk.glue, hmore, writeBody_cons_cons]

theorem spell_chunks (symbol : String) (rule : Rule) :
    spell (chunks symbol rule) = Listing.line symbol rule := by
  obtain ⟨p, ps, hparts⟩ := List.exists_cons_of_ne_nil (bodyChunks_ne_nil rule.tokens)
  have hbody := spell_bodyChunks rule.tokens
  rw [hparts] at hbody
  simp [chunks, hparts, spell, Chunk.glue, hbody, Listing.line, writeRule]

theorem Spaced.bare (line : List Char) (h : Spaced plain lines) :
    Spaced (line :: plain) (line :: lines) := by
  have hline := @Spaced.padded [] line [] _ _ (by simp) (by simp) h
  rwa [List.nil_append, List.append_nil] at hline

theorem spaced_self (plain : List (List Char)) : Spaced plain (plain ++ [[]]) := by
  induction plain with
  | nil => exact .idle (.inl rfl) .nil
  | cons line plain ih => exact ih.bare line

end Listing

namespace Grammar

open Listing

/-- A listing of a grammar is read as the grammar, however it is laid out. -/
theorem ofListing_relaid (g : Grammar)
    (hkeys : ∀ entry ∈ g.rules.entries, IsKey entry.1 ∧ entry.2 ≠ [])
    (hlines : ∀ entry ∈ g.rules.entries, ∀ rule ∈ entry.2, rule.OnOneLine) :
    LaysOut g.listing g.pairs ∧ ∀ source, LaysOut source g.pairs → ofListing source = .ok g := by
  have hpairs : ∀ pair ∈ g.pairs, IsKey pair.1 ∧ pair.2.OnOneLine := by
    intro pair hpair
    obtain ⟨entry, hentry, hsymbol, hrule⟩ := mem_pairs hpair
    rw [hsymbol]
    exact ⟨(hkeys entry hentry).1, hlines entry hentry pair.2 hrule⟩
  constructor
  · have hlisting : Text.lines g.listing.toList =
        g.pairs.map (fun pair => line pair.1 pair.2) ++ [[]] := by
      rw [toList_listing]
      exact Text.lines_flatMap _ fun pair hpair =>
        newline_not_mem_line (hpairs pair hpair).1 (hpairs pair hpair).2
    refine ⟨g.pairs.map fun pair => [line pair.1 pair.2], ?_, ?_⟩
    · rw [List.forall₂_map_right_iff, List.forall₂_same]
      intro pair _
      rw [← spell_chunks]
      exact broken_spell _ (List.cons_ne_nil _ _)
    · rw [hlisting, ← List.flatMap_def, ← List.map_eq_flatMap]
      exact spaced_self _
  · intro source hsource
    obtain ⟨broken, hbroken, hspaced⟩ := hsource
    obtain ⟨hunclosed, hclosed⟩ :=
      layout_of_spaced (fun pair hpair => (hpairs pair hpair).1) hbroken hspaced 1
    exact ofListing_eq_ok_iff.2
      ⟨hunclosed, g.pairs, hclosed, (ofPairs_pairs fun entry hentry => (hkeys entry hentry).2).symm⟩

/-- An empty rule, and a token that holds the signs of comments and of ends. -/
def hashes : Grammar :=
  ⟨⟨[("<a>", [⟨[]⟩, ⟨["#]", "<b>"]⟩])], List.pairwise_singleton _ _⟩⟩

/-- The first rule breaks wherever it can, around a comment and a blank line, and the second only
before a token and before the closing bracket. -/
def relaidHashes : String :=
  "# ]\r\n\t<a>\n::=\n # [\n\n[\r\n]\n<a> ::= [\"#]\",\n <b>\n]\n"

theorem laysOut_relaidHashes : LaysOut relaidHashes hashes.pairs := by
  have hpairs : hashes.pairs = [("<a>", ⟨[]⟩), ("<a>", ⟨["#]", "<b>"]⟩)] := by decide +kernel
  have hparts : chunks "<a>" ⟨[]⟩ = [⟨['<', 'a', '>'], true⟩, ⟨[':', ':', '='], true⟩,
      ⟨['['], false⟩, ⟨[']'], false⟩] := by
    decide +kernel
  have hempty : Broken (chunks "<a>" ⟨[]⟩) [['<', 'a', '>'], [':', ':', '='], ['['], [']']] := by
    rw [hparts]
    exact .next (.next (.next (.last _)))
  have hmoreParts : chunks "<a>" ⟨["#]", "<b>"]⟩ = [⟨['<', 'a', '>'], true⟩,
      ⟨[':', ':', '='], true⟩, ⟨['['], false⟩, ⟨['\x22', '#', ']', '\x22', ','], true⟩,
      ⟨['<', 'b', '>'], false⟩, ⟨[']'], false⟩] := by
    decide +kernel
  have htokens : Broken (chunks "<a>" ⟨["#]", "<b>"]⟩)
      [['<', 'a', '>', ' ', ':', ':', '=', ' ', '[', '\x22', '#', ']', '\x22', ','],
        ['<', 'b', '>'], [']']] := by
    rw [hmoreParts]
    exact .same (.same (.same (.next (.next (.last _)))))
  have hlines : Text.lines relaidHashes.toList = ["# ]\r".toList, ['\t', '<', 'a', '>'],
      [':', ':', '='], " # [".toList, [], ['[', '\r'], [']'],
      ['<', 'a', '>', ' ', ':', ':', '=', ' ', '[', '\x22', '#', ']', '\x22', ','],
      [' ', '<', 'b', '>'], [']'], []] := by
    decide +kernel
  have htab : ∀ c ∈ ['\t'], Text.isBlank c = true := List.forall_mem_singleton.2 rfl
  have hreturn : ∀ c ∈ ['\r'], Text.isBlank c = true := List.forall_mem_singleton.2 rfl
  have hspace : ∀ c ∈ [' '], Text.isBlank c = true := List.forall_mem_singleton.2 rfl
  have hnone : ∀ c ∈ [], Text.isBlank c = true := List.forall_mem_nil _
  have hblank : IsIdle [] := .inl rfl
  have hend := Spaced.bare [']'] (.idle hblank .nil)
  have htoken := @Spaced.padded [' '] ['<', 'b', '>'] [] _ _ hspace hnone hend
  have hsecond := htoken.bare
    ['<', 'a', '>', ' ', ':', ':', '=', ' ', '[', '\x22', '#', ']', '\x22', ',']
  have hopen := @Spaced.padded [] ['['] ['\r'] _ _ hnone hreturn (hsecond.bare [']'])
  have hcomment : IsIdle " # [".toList := .inr (by decide +kernel)
  have hsign := Spaced.bare [':', ':', '='] (.idle hcomment (.idle hblank hopen))
  have hfirst := @Spaced.padded ['\t'] ['<', 'a', '>'] [] _ _ htab hnone hsign
  have hhead : IsIdle "# ]\r".toList := .inr (by decide +kernel)
  rw [hpairs, LaysOut, hlines]
  exact ⟨_, .cons hempty (.cons htokens .nil), .idle hhead hfirst⟩

theorem ofListing_relaid_hashes :
    (∀ entry ∈ hashes.rules.entries, IsKey entry.1 ∧ entry.2 ≠ []) ∧
      (∀ entry ∈ hashes.rules.entries, ∀ rule ∈ entry.2, rule.OnOneLine) ∧
      LaysOut hashes.listing hashes.pairs ∧ ofListing relaidHashes = .ok hashes := by
  have hkeys : ∀ entry ∈ hashes.rules.entries, IsKey entry.1 ∧ entry.2 ≠ [] :=
    List.forall_mem_singleton.2 ⟨⟨['a'], by decide⟩, by decide⟩
  have hlines : ∀ entry ∈ hashes.rules.entries, ∀ rule ∈ entry.2, rule.OnOneLine := by
    simp only [Rule.onOneLine_iff]
    decide
  obtain ⟨hplain, hread⟩ := ofListing_relaid hashes hkeys hlines
  exact ⟨hkeys, hlines, hplain, hread relaidHashes laysOut_relaidHashes⟩

end Grammar

end GrammarSampler
