import GrammarSampler.Command.Reply
import GrammarSampler.Proofs.Engine.Expansions
import GrammarSampler.Proofs.Sampler.Strict

/-!
# Runs with one seed

A run of the program prints texts that are drawn one after the other from one source. Runs with the
same seed print beginnings of one row of texts: how many are asked for decides where a run ends, and
nothing before that. A fault ends every run that comes so far.
-/

namespace GrammarSampler

/-! ## Texts drawn in turn -/

namespace Sampler

variable {s : Sampler} {g : Grammar} {config : Config} {start : String} {maxDepth : Nat}

/-- Whether `texts` are drawn one after the other, the first from `source` and each of the others
from what the one before has left, so that `after` is left in the end. -/
inductive DrawsInTurn (s : Sampler) (start : String) (maxDepth : Nat) :
    Source → List String → Source → Prop
  | done {source : Source} : DrawsInTurn s start maxDepth source [] source
  | next {source middle after : Source} {text : String} {texts : List String}
      (h : s.sample start maxDepth source = some (.ok text, middle))
      (hmore : DrawsInTurn s start maxDepth middle texts after) :
      DrawsInTurn s start maxDepth source (text :: texts) after

/-- Texts can be drawn in turn up to any number, or up to a draw that gives none. -/
theorem exists_drawsInTurn (s : Sampler) (start : String) (maxDepth count : Nat)
    (source : Source) :
    ∃ texts after, s.DrawsInTurn start maxDepth source texts after ∧
      (texts.length = count ∨ texts.length < count ∧
        ∀ text last, s.sample start maxDepth after ≠ some (.ok text, last)) := by
  induction count generalizing source with
  | zero => exact ⟨[], source, .done, .inl rfl⟩
  | succ count ih =>
      by_cases h : ∃ text middle, s.sample start maxDepth source = some (.ok text, middle)
      · obtain ⟨text, middle, hsample⟩ := h
        obtain ⟨texts, after, hmore, hlength⟩ := ih middle
        refine ⟨text :: texts, after, .next hsample hmore, ?_⟩
        rw [List.length_cons, Nat.add_left_inj, Nat.add_lt_add_iff_right]
        exact hlength
      · exact ⟨[], source, .done, .inr ⟨Nat.succ_pos count, fun text last hsample =>
          h ⟨text, last, hsample⟩⟩⟩

/-- A draw that chooses a rule does not tell whether the next block of a stream is ready. -/
theorem sample_opened (hdefines : s.grammar.defines start = true)
    (hrules : s.grammar.rulesOf start ≠ []) (k : Keystream) (drawn32 drawn64 : Nat) :
    s.sample start maxDepth ⟨.stream k.opened, drawn32, drawn64⟩ =
      s.sample start maxDepth ⟨.stream k, drawn32, drawn64⟩ := by
  simp only [sample, derive, hdefines, Bool.not_true, Bool.and_false, Bool.false_eq_true,
    ↓reduceIte, GrammarSampler.derive]
  rw [Setting.grow_eq_of_choose_eq hdefines (Setting.options_eq_any hrules (Nat.zero_le _))
    (Source.below_opened .w64 _ k drawn32 drawn64)]

/-- Whether no choice that is drawn from `source`, or from what draws leave of it, goes on for ever.
It is so for a fair source (`Source.answers_choose`). -/
def Answers (s : Sampler) (maxDepth : Nat) (source : Source) : Prop :=
  Source.choose.Answers (s.config.strategy.setting s.grammar maxDepth s.config.nodeLimit) source

theorem Answers.exists_sample {source : Source} (h : s.Answers maxDepth source) (start : String) :
    ∃ result after, s.sample start maxDepth source = some (result, after) ∧
      s.Answers maxDepth after := by
  obtain ⟨g, costs, config, rfl⟩ := s
  rw [sample, derive]
  split
  · exact ⟨_, source, rfl, h⟩
  · obtain ⟨result, after, hderive, hafter⟩ := exists_derive_answers h
    exact ⟨_, after, by rw [hderive, Option.map_some], hafter⟩

theorem config_of_ofGrammar (h : Sampler.ofGrammar g config = .ok s) : s.config = config := by
  rw [(ofGrammar_eq_ok_iff.1 h).2]

end Sampler

namespace Command

variable {s : Sampler} {g : Grammar} {source after last : Source} {text : String}
  {texts : List String} {fault : Fault} {m n : Nat} {reply : Reply}

/-! ## One text -/

theorem printTexts_succ_of_ok (h : s.sampleStart source = some (.ok text, after)) (n : Nat) :
    printTexts s (n + 1) source = (printTexts s n after).map fun reply =>
      { reply with output := text ++ "\n" ++ reply.output } := by
  rw [printTexts, h]

theorem printTexts_succ_of_error (h : s.sampleStart source = some (.error fault, after)) (n : Nat) :
    printTexts s (n + 1) source = some ⟨"", some fault⟩ := by
  rw [printTexts, h]

theorem printTexts_succ_of_none (h : s.sampleStart source = none) (n : Nat) :
    printTexts s (n + 1) source = none := by
  rw [printTexts, h]

/-! ## Texts in turn -/

/-- Texts as they are printed, each on a line of its own. -/
def printed (texts : List String) : String := String.join (texts.map (· ++ "\n"))

theorem printed_cons (text : String) (texts : List String) :
    printed (text :: texts) = text ++ "\n" ++ printed texts := by
  rw [printed, List.map_cons, String.join_cons]
  rfl

section

variable (h : s.DrawsInTurn s.config.startSymbol s.config.maxDepth source texts after)

include h

/-- What comes after texts is printed as it would be from the source that they leave. -/
theorem printTexts_length_add (n : Nat) :
    printTexts s (texts.length + n) source = (printTexts s n after).map fun reply =>
      { reply with output := printed texts ++ reply.output } := by
  induction h with
  | @done source =>
      rw [List.length_nil, Nat.zero_add]
      cases printTexts s n source with
      | none => rfl
      | some reply => simp [printed]
  | next hsample hmore ih =>
      rw [List.length_cons, Nat.succ_add, printTexts_succ_of_ok hsample, ih, Option.map_map]
      simp only [Function.comp_def, printed_cons, String.append_assoc]

theorem printTexts_eq_of_length_eq (hlength : texts.length = n) :
    printTexts s n source = some ⟨printed texts, none⟩ := by
  have hprinted := printTexts_length_add h 0
  rw [Nat.add_zero, hlength] at hprinted
  rw [hprinted, printTexts, Option.map_some, String.append_empty]

theorem printTexts_eq_of_error (hlength : texts.length < n)
    (hfault : s.sampleStart after = some (.error fault, last)) :
    printTexts s n source = some ⟨printed texts, some fault⟩ := by
  obtain ⟨more, rfl⟩ := Nat.exists_eq_add_of_lt hlength
  rw [Nat.add_assoc, printTexts_length_add h, printTexts_succ_of_error hfault, Option.map_some,
    String.append_empty]

theorem printTexts_eq_none (hlength : texts.length < n) (hendless : s.sampleStart after = none) :
    printTexts s n source = none := by
  obtain ⟨more, rfl⟩ := Nat.exists_eq_add_of_lt hlength
  rw [Nat.add_assoc, printTexts_length_add h, printTexts_succ_of_none hendless, Option.map_none]

end

/-- A run ends if every choice does. -/
theorem exists_printTexts_eq_some (h : s.Answers s.config.maxDepth source) (n : Nat) :
    ∃ reply, printTexts s n source = some reply := by
  induction n generalizing source with
  | zero => exact ⟨{}, rfl⟩
  | succ n ih =>
      obtain ⟨fault | text, after, hsample, hafter⟩ := h.exists_sample s.config.startSymbol
      · exact ⟨_, printTexts_succ_of_error hsample n⟩
      · obtain ⟨reply, hreply⟩ := ih hafter
        exact ⟨_, by rw [printTexts_succ_of_ok hsample, hreply, Option.map_some]⟩

/-- Whoever asks for fewer texts gets a beginning of what is printed. -/
theorem exists_output_eq_append (hmn : m ≤ n) (h : printTexts s n source = some reply) :
    ∃ shorter more, printTexts s m source = some shorter ∧
      reply.output = shorter.output ++ more := by
  induction m generalizing n source reply with
  | zero => exact ⟨{}, reply.output, rfl, String.empty_append.symm⟩
  | succ m ih =>
      obtain ⟨n, rfl⟩ := Nat.exists_eq_add_of_lt (Nat.lt_of_lt_of_le (Nat.succ_pos m) hmn)
      rw [Nat.zero_add] at h hmn
      cases hsample : s.sampleStart source with
      | none =>
          rw [printTexts_succ_of_none hsample] at h
          cases h
      | some drawn =>
          obtain ⟨fault | text, after⟩ := drawn
          · rw [printTexts_succ_of_error hsample] at h
            cases h
            exact ⟨_, "", printTexts_succ_of_error hsample m, String.append_empty.symm⟩
          · rw [printTexts_succ_of_ok hsample, Option.map_eq_some_iff] at h
            obtain ⟨rest, hrest, rfl⟩ := h
            obtain ⟨shorter, more, hshorter, happend⟩ := ih (Nat.le_of_succ_le_succ hmn) hrest
            refine ⟨_, more, by rw [printTexts_succ_of_ok hsample, hshorter, Option.map_some], ?_⟩
            rw [happend, String.append_assoc, String.append_assoc, String.append_assoc]

/-! ## Runs of the program -/

variable {read : String → Except FileFault ByteArray} {o : Options} {seed : Nat}

/-- A run that is given a seed and is not to show costs prints texts from the source of the seed. -/
theorem reply_eq_printTexts (hgrammar : o.grammar read = .ok g)
    (hsampler : Sampler.ofGrammar g o.config = .ok s) (hseed : o.seed = some seed)
    (hcosts : Flag.costs ∉ o.flags) (chance : Source) (n : Nat) :
    Request.reply read chance (.sample { o with count := some n }) =
      printTexts s n (.ofSeed seed.toUInt64) := by
  have hread : (Options.grammar { o with count := some n } read).bind
      (fun g => Sampler.ofGrammar g (Options.config { o with count := some n })) = .ok s := by
    change (o.grammar read).bind (fun g => Sampler.ofGrammar g o.config) = .ok s
    rw [hgrammar]
    exact hsampler
  have hflag : o.flags.contains .costs = false := by simpa using hcosts
  rw [Request.reply, hread]
  simp only [hflag, hseed, Bool.false_eq_true, ↓reduceIte, Option.getD_some]

/-- Runs with one seed print beginnings of one row of texts: those that are drawn in turn from the
source of the seed. A run stops after the texts that it is asked for, or before that with the fault
of the first draw that gives no text. It has no end only if a choice has none. -/
theorem seeded_runs_print_one_row (hgrammar : o.grammar read = .ok g)
    (hsampler : Sampler.ofGrammar g o.config = .ok s) (hseed : o.seed = some seed)
    (hcosts : Flag.costs ∉ o.flags) :
    (∀ texts after, s.DrawsInTurn o.config.startSymbol o.config.maxDepth (.ofSeed seed.toUInt64)
        texts after → ∀ chance n,
      (texts.length = n → ∃ reply,
        Request.reply read chance (.sample { o with count := some n }) = some reply ∧
          reply.output = printed texts ∧ reply.fault = none ∧ reply.code = 0) ∧
      (texts.length < n → ∀ fault last,
        s.sample o.config.startSymbol o.config.maxDepth after = some (.error fault, last) →
          ∃ reply, Request.reply read chance (.sample { o with count := some n }) = some reply ∧
            reply.output = printed texts ∧ reply.fault = some fault ∧ reply.code = 1) ∧
      (texts.length < n → s.sample o.config.startSymbol o.config.maxDepth after = none →
        Request.reply read chance (.sample { o with count := some n }) = none)) ∧
    (∀ n, ∃ texts after, s.DrawsInTurn o.config.startSymbol o.config.maxDepth
        (.ofSeed seed.toUInt64) texts after ∧
      (texts.length = n ∨ texts.length < n ∧ ∀ text last,
        s.sample o.config.startSymbol o.config.maxDepth after ≠ some (.ok text, last))) ∧
    (s.Answers o.config.maxDepth (.ofSeed seed.toUInt64) → ∀ chance n, ∃ reply,
      Request.reply read chance (.sample { o with count := some n }) = some reply) ∧
    ∀ m n, m ≤ n → ∀ chance other reply,
      Request.reply read chance (.sample { o with count := some n }) = some reply →
        ∃ shorter more,
          Request.reply read other (.sample { o with count := some m }) = some shorter ∧
            reply.output = shorter.output ++ more := by
  have hreply := reply_eq_printTexts hgrammar hsampler hseed hcosts
  simp only [hreply]
  rw [← Sampler.config_of_ofGrammar hsampler]
  refine ⟨fun texts after h _ n => ⟨fun hlength => ?_, fun hlength fault last hfault => ?_,
    printTexts_eq_none h⟩, fun n => s.exists_drawsInTurn _ _ n _,
    fun h _ => exists_printTexts_eq_some h, fun m n hmn _ _ reply => exists_output_eq_append hmn⟩
  · exact ⟨_, printTexts_eq_of_length_eq h hlength, rfl, rfl, rfl⟩
  · exact ⟨_, printTexts_eq_of_error h hlength hfault, rfl, rfl, rfl⟩

/-- A listing whose texts may grow past the limit. -/
def growing : String := "<start> ::= [a]\n<start> ::= [b <start>]\n"

def growingGrammar : Grammar :=
  ⟨⟨[("<start>", [⟨["a"]⟩, ⟨["b", "<start>"]⟩])], List.pairwise_singleton _ _⟩⟩

def growingOptions : Options := { file := some "growing.txt", seed := some 33, nodeLimit := some 4 }

def growingSampler : Sampler :=
  ⟨growingGrammar, .ofGrammar growingGrammar, growingOptions.config, rfl⟩

/-- The stream of the seed when all but the given words of its first block have been taken. -/
def growingSource (unread : List UInt32) (drawn64 : Nat) : Source :=
  ⟨.stream ⟨(Keystream.ofSeed 33).key, 1, unread⟩, 0, drawn64⟩

/-- The first block of the stream of the seed. -/
def firstBlock : List UInt32 :=
  [2983978643, 1212828696, 2455682373, 692398139, 2989800868, 3237258880, 3346643210, 2926234077,
    1633647527, 1968691037, 214030169, 794758958, 281278826, 3220601213, 3048735679, 2262469470]

theorem opened_ofSeed :
    (Keystream.ofSeed 33).opened = ⟨(Keystream.ofSeed 33).key, 1, firstBlock⟩ := by
  have hblock : (KeyBlock.start (Keystream.ofSeed 33).key 0).finish.toList = firstBlock := by
    rw [KeyBlock.finish, Vector.toList_zipWith]
    decide +kernel
  rw [← hblock]
  rfl

theorem drawsInTurn_growing : growingSampler.DrawsInTurn "<start>" 10 (.ofSeed 33) ["a", "ba"]
    (growingSource (firstBlock.drop 12) 6) := by
  have hopened : growingSampler.sample "<start>" 10 (growingSource firstBlock 0) =
      growingSampler.sample "<start>" 10 (.ofSeed 33) := by
    rw [growingSource, ← opened_ofSeed]
    exact Sampler.sample_opened (by decide) (by decide) _ 0 0
  have hfirst : growingSampler.sample "<start>" 10 (.ofSeed 33) =
      some (.ok "a", growingSource (firstBlock.drop 4) 2) := by
    rw [← hopened]
    decide +kernel
  have hsecond : growingSampler.sample "<start>" 10 (growingSource (firstBlock.drop 4) 2) =
      some (.ok "ba", growingSource (firstBlock.drop 12) 6) := by
    decide +kernel
  exact .next hfirst (.next hsecond .done)

theorem seeded_runs_print_one_row_growing :
    growingOptions.grammar (fun _ => .ok growing.toUTF8) = .ok growingGrammar ∧
      Sampler.ofGrammar growingGrammar growingOptions.config = .ok growingSampler ∧
      growingOptions.seed = some 33 ∧ Flag.costs ∉ growingOptions.flags ∧
    ∀ chance,
      (∃ reply, Request.reply (fun _ => .ok growing.toUTF8) chance
          (.sample { growingOptions with count := some 2 }) = some reply ∧
        reply.output = "a\nba\n" ∧ reply.fault = none ∧ reply.code = 0) ∧
      (∃ reply, Request.reply (fun _ => .ok growing.toUTF8) chance
          (.sample { growingOptions with count := some 9 }) = some reply ∧
        reply.output = "a\nba\n" ∧ reply.fault = some (.nodeLimit 4) ∧ reply.code = 1) ∧
      ∃ shorter more, Request.reply (fun _ => .ok growing.toUTF8) chance
          (.sample { growingOptions with count := some 1 }) = some shorter ∧
        "a\nba\n" = shorter.output ++ more := by
  have hread : growingOptions.grammar (fun _ => .ok growing.toUTF8) = .ok growingGrammar := by
    have hlisting : Grammar.ofListing growing = .ok growingGrammar := by decide +kernel
    have htext : String.fromUTF8? growing.toUTF8 = some growing := by
      simpa [String.fromUTF8?] using ⟨growing.isValidUTF8, rfl⟩
    change Grammar.ofFile "growing.txt" (.ok growing.toUTF8) = _
    rw [Grammar.ofFile]
    simp only [htext]
    exact hlisting
  have hsampler : Sampler.ofGrammar growingGrammar growingOptions.config = .ok growingSampler := rfl
  have hcosts : Flag.costs ∉ growingOptions.flags := List.not_mem_nil
  have hstop : growingSampler.sample "<start>" 10 (growingSource (firstBlock.drop 12) 6) =
      some (.error (.nodeLimit 4), growingSource (firstBlock.drop 16) 8) := by
    decide +kernel
  obtain ⟨hturns, -, -, hshorter⟩ := seeded_runs_print_one_row hread hsampler rfl hcosts
  refine ⟨hread, hsampler, rfl, hcosts, fun chance => ?_⟩
  have hdrawn := hturns ["a", "ba"] _ drawsInTurn_growing chance
  obtain ⟨reply, hreply, houtput, hends⟩ := (hdrawn 2).1 rfl
  refine ⟨⟨reply, hreply, houtput, hends⟩, (hdrawn 9).2.1 (by decide) _ _ hstop, ?_⟩
  obtain ⟨shorter, more, hshort, happend⟩ := hshorter 1 2 (by decide) chance chance reply hreply
  exact ⟨shorter, more, hshort, houtput.symm.trans happend⟩

end Command

end GrammarSampler
