import Mathlib.Data.List.DropRight
import Slakshna.Lib.Tags

/-! Param2 outputs: reasoning and tool calls between tags, and the answer that is left. -/
namespace Slakshna.Param2
open Tags

abbrev Text := List Char

def thinkOpen : Tag Char '<' := ⟨['t', 'h', 'i', 'n', 'k', '>'], by decide⟩

def thinkClose : Tag Char '<' := ⟨['/', 't', 'h', 'i', 'n', 'k', '>'], by decide⟩

def toolOpen : Tag Char '<' := ⟨['t', 'o', 'o', 'l', '_', 'c', 'a', 'l', 'l', '>'], by decide⟩

def toolClose : Tag Char '<' :=
  ⟨['/', 't', 'o', 'o', 'l', '_', 'c', 'a', 'l', 'l', '>'], by decide⟩

def think : Delims Char '<' := ⟨thinkOpen, thinkClose⟩

def toolCall : Delims Char '<' := ⟨toolOpen, toolClose⟩

instance (g h : Tag Char '<') : Decidable (g.Apart h) := inferInstanceAs (Decidable (_ ∧ _))

theorem toolOpen_apart_thinkOpen : toolOpen.Apart thinkOpen := by decide

theorem toolOpen_apart_thinkClose : toolOpen.Apart thinkClose := by decide

theorem thinkOpen_apart_toolOpen : thinkOpen.Apart toolOpen := by decide

theorem thinkOpen_apart_toolClose : thinkOpen.Apart toolClose := by decide

theorem thinkClose_apart_toolOpen : thinkClose.Apart toolOpen := by decide

theorem thinkClose_apart_toolClose : thinkClose.Apart toolClose := by decide

theorem toolClose_apart_toolOpen : toolClose.Apart toolOpen := by decide

def isspace (c : Char) : Bool :=
  let n := c.toNat
  (0x09 ≤ n && n ≤ 0x0d) || (0x1c ≤ n && n ≤ 0x20) || n == 0x85 || n == 0xa0 || n == 0x1680 ||
    (0x2000 ≤ n && n ≤ 0x200a) || n == 0x2028 || n == 0x2029 || n == 0x202f || n == 0x205f ||
    n == 0x3000

def strip (s : Text) : Text := (s.dropWhile isspace).rdropWhile isspace

theorem isspace_of_strip_eq_nil {s : Text} (h : strip s = []) : ∀ c ∈ s, isspace c = true := by
  rw [strip, List.rdropWhile_eq_nil_iff] at h
  cases hleft : s.dropWhile isspace with
  | nil => exact List.dropWhile_eq_nil_iff.1 hleft
  | cons c rest =>
    have hhead := List.head?_dropWhile_not isspace s
    rw [hleft] at h hhead
    have hfalse : isspace c = false := hhead
    rw [h c List.mem_cons_self] at hfalse
    cases hfalse

structure Param2Output where
  reasoning : Text
  toolCalls : List Text
  finalAnswer : Text
  raw : Text
  deriving DecidableEq

def finalAnswer (text : Text) : Text := strip (removed toolCall (removed think text))

def parseModelOutput (text : Text) : Param2Output where
  reasoning :=
    match findBlock think text with
    | some (_, content, _) => strip content
    | none => []
  toolCalls := (contents toolCall text).map strip
  finalAnswer := finalAnswer text
  raw := text

def render (reasoning : Text) (toolCalls : List Text) (answer : Text) : Text :=
  thinkOpen.text ++ (reasoning ++ (thinkClose.text ++
    (toolCalls.flatMap (fun t => toolOpen.text ++ (t ++ toolClose.text)) ++ answer)))

structure Clean (s : Text) : Prop where
  stripped : (∀ c ∈ s.head?, isspace c = false) ∧ ∀ c ∈ s.getLast?, isspace c = false
  thinkOpen : ¬thinkOpen.text <:+: s
  thinkClose : ¬thinkClose.text <:+: s
  toolOpen : ¬toolOpen.text <:+: s
  toolClose : ¬toolClose.text <:+: s

theorem strip_eq {s : Text} (hhead : ∀ c ∈ s.head?, isspace c = false)
    (hlast : ∀ c ∈ s.getLast?, isspace c = false) : strip s = s := by
  have hleft : s.dropWhile isspace = s := by
    rw [List.dropWhile_eq_self_iff]
    intro hpos
    have hfirst := hhead s[0] (by rw [List.head?_eq_getElem?, List.getElem?_eq_getElem hpos]; rfl)
    simpa using hfirst
  rw [strip, hleft, List.rdropWhile_eq_self_iff]
  intro hne
  have hend := hlast (s.getLast hne) (List.getLast?_eq_some_getLast hne)
  simpa using hend

theorem Clean.strip_eq {s : Text} (h : Clean s) : strip s = s :=
  Param2.strip_eq h.stripped.1 h.stripped.2

def renderTail (toolCalls : List Text) (answer : Text) : Text :=
  toolCalls.flatMap (fun t => toolOpen.text ++ (t ++ toolClose.text)) ++ answer

theorem renderTail_cons (t : Text) (toolCalls : List Text) (answer : Text) :
    renderTail (t :: toolCalls) answer =
      toolOpen.text ++ (t ++ (toolClose.text ++ renderTail toolCalls answer)) := by
  simp [renderTail]

theorem split_answer {p : Delims Char '<'} {answer : Text} (h : ¬p.opening.text <:+: answer) :
    contents p answer = [] ∧ removed p answer = answer := by
  have hskip := split_skip (Tag.skips_nil_iff.2 h)
  rw [List.append_nil] at hskip
  refine ⟨hskip.1, ?_⟩
  rw [hskip.2]
  simp [removed]

theorem split_renderTail {toolCalls : List Text} {answer : Text}
    (hcalls : ∀ t ∈ toolCalls, Clean t) (hanswer : Clean answer) :
    contents toolCall (renderTail toolCalls answer) = toolCalls ∧
      removed toolCall (renderTail toolCalls answer) = answer := by
  induction toolCalls with
  | nil => exact split_answer hanswer.toolOpen
  | cons t toolCalls ih =>
    obtain ⟨ht, hrest⟩ := List.forall_mem_cons.1 hcalls
    obtain ⟨hcontents, hremoved⟩ := ih hrest
    rw [renderTail_cons]
    constructor
    · exact (contents_block ht.toolClose _).trans (congrArg (t :: ·) hcontents)
    · exact (removed_block ht.toolClose _).trans hremoved

theorem thinkOpen_not_infix_renderTail {toolCalls : List Text} {answer : Text}
    (hcalls : ∀ t ∈ toolCalls, Clean t) (hanswer : Clean answer) :
    ¬thinkOpen.text <:+: renderTail toolCalls answer := by
  rw [← Tag.skips_nil_iff]
  induction toolCalls with
  | nil => exact Tag.skips_nil_iff.2 hanswer.thinkOpen
  | cons t toolCalls ih =>
    obtain ⟨ht, hrest⟩ := List.forall_mem_cons.1 hcalls
    rw [renderTail_cons, Tag.skips_append, Tag.skips_append, Tag.skips_append]
    refine ⟨thinkOpen_apart_toolOpen.skips _, ?_, thinkOpen_apart_toolClose.skips _, ih hrest⟩
    exact Tag.skips_of_head ht.thinkOpen (by simp [Tag.text])

/-- Parsing undoes rendering. -/
theorem parse_render {reasoning : Text} {toolCalls : List Text} {answer : Text}
    (hreasoning : Clean reasoning) (hcalls : ∀ t ∈ toolCalls, Clean t) (hanswer : Clean answer) :
    parseModelOutput (render reasoning toolCalls answer) =
      ⟨reasoning, toolCalls, answer, render reasoning toolCalls answer⟩ := by
  have htail := split_renderTail hcalls hanswer
  have hrender : render reasoning toolCalls answer = thinkOpen.text ++
    (reasoning ++ (thinkClose.text ++ renderTail toolCalls answer)) := rfl
  -- no tool call begins in the think block
  have hskip : toolOpen.Skips (thinkOpen.text ++ (reasoning ++ thinkClose.text))
      (renderTail toolCalls answer) := by
    rw [Tag.skips_append, Tag.skips_append]
    refine ⟨toolOpen_apart_thinkOpen.skips _, ?_, toolOpen_apart_thinkClose.skips _⟩
    exact Tag.skips_of_head hreasoning.toolOpen (by simp [Tag.text])
  have hblock : findBlock think (render reasoning toolCalls answer) =
      some ([], reasoning, renderTail toolCalls answer) :=
    findBlock_eq_some_iff.2 ⟨hrender, by simp [Tag.text], hreasoning.thinkClose⟩
  have hcontents : contents toolCall (render reasoning toolCalls answer) = toolCalls := by
    have hfirst := (split_skip (p := toolCall) hskip).1
    rw [hrender]
    simpa only [List.append_assoc] using hfirst.trans htail.1
  have hremoved : removed think (render reasoning toolCalls answer) =
      renderTail toolCalls answer := by
    rw [hrender]
    refine (removed_block (p := think) hreasoning.thinkClose _).trans ?_
    exact (split_answer (p := think) (thinkOpen_not_infix_renderTail hcalls hanswer)).2
  have hcalls_strip : toolCalls.map strip = toolCalls := by
    have hall := List.map_congr_left (fun t ht => (hcalls t ht).strip_eq)
    exact hall.trans (List.map_id' toolCalls)
  rw [parseModelOutput, finalAnswer, hblock, hcontents, hremoved, htail.2]
  simp only [hreasoning.strip_eq, hanswer.strip_eq, hcalls_strip]

theorem parse_render_partial_tags :
    parseModelOutput (render ['a', '\n', '<'] [['\x7b', '\x7d'], ['<', 't']] ['4', '2']) =
      ⟨['a', '\n', '<'], [['\x7b', '\x7d'], ['<', 't']], ['4', '2'],
        render ['a', '\n', '<'] [['\x7b', '\x7d'], ['<', 't']] ['4', '2']⟩ := by
  have hnone : ∀ o : Option Char, o.any isspace = false → ∀ c ∈ o, isspace c = false := by
    rintro o ho c rfl
    exact ho
  have hclean : ∀ s : Text, (s.length < 6 ∧ s.head?.any isspace = false ∧
      s.getLast?.any isspace = false) → Clean s := by
    rintro s ⟨hlen, hhead, hlast⟩
    have hshort : ∀ g : Tag Char '<', 6 ≤ g.text.length → ¬g.text <:+: s := by
      intro g hg hmeets
      have hle := hmeets.length_le
      omega
    exact ⟨⟨hnone _ hhead, hnone _ hlast⟩, hshort _ (by decide), hshort _ (by decide),
      hshort _ (by decide), hshort _ (by decide)⟩
  apply parse_render
  · exact hclean _ (by decide)
  · simp only [List.forall_mem_cons, List.not_mem_nil, false_implies, implies_true, and_true]
    exact ⟨hclean _ (by decide), hclean _ (by decide)⟩
  · exact hclean _ (by decide)

/-- Two texts that differ at most inside of their think blocks. -/
def SameOutside (s t : Text) : Prop :=
  (split think s).1.map Prod.fst = (split think t).1.map Prod.fst ∧
    (split think s).2 = (split think t).2

/-- No complete tool call meets a think block. -/
def CallsOutside (s : Text) : Prop :=
  ∀ call ∈ spans toolCall s, ∀ block ∈ spans think s, call.2 ≤ block.1 ∨ block.2 ≤ call.1

theorem SameOutside.removed_eq {s t : Text} (h : SameOutside s t) :
    removed think s = removed think t := by
  rw [removed, removed, List.flatMap_def, List.flatMap_def, h.1, h.2]

theorem SameOutside.finalAnswer_eq {s t : Text} (h : SameOutside s t) :
    (parseModelOutput s).finalAnswer = (parseModelOutput t).finalAnswer := by
  rw [parseModelOutput, parseModelOutput, finalAnswer, finalAnswer, h.removed_eq]

theorem fenced_think (content : Text) :
    Fenced toolCall (thinkOpen.text ++ (content ++ thinkClose.text)) where
  pos := by simp [Tag.text]
  head := by simp [Tag.text]
  skips := by
    intro h y
    have hcontent : ¬toolOpen.text <:+: content := by
      intro hmeets
      exact h (hmeets.trans ⟨thinkOpen.text, thinkClose.text, by simp⟩)
    rw [Tag.skips_append, Tag.skips_append]
    exact ⟨toolOpen_apart_thinkOpen.skips _, Tag.skips_of_head hcontent (by simp [Tag.text]),
      toolOpen_apart_thinkClose.skips _⟩

theorem contents_assemble_think (segments : List (Text × Text)) (rest : Text)
    (houtside : ∀ call ∈ spans toolCall (assemble think segments rest),
      ∀ block ∈ spansFrom think 0 segments, call.2 ≤ block.1 ∨ block.2 ≤ call.1) :
    contents toolCall (assemble think segments rest) =
      (segments.map Prod.fst).flatMap (contents toolCall) ++ contents toolCall rest := by
  induction segments with
  | nil => rfl
  | cons segment segments ih =>
    obtain ⟨before, content⟩ := segment
    let block := thinkOpen.text ++ (content ++ thinkClose.text)
    let later := assemble think segments rest
    have htext : assemble think ((before, content) :: segments) rest =
        before ++ (block ++ later) := by
      simp [assemble, block, later, think]
    rw [htext] at houtside ⊢
    have haround : Around toolCall before block later (before ++ (block ++ later)) := by
      apply contents_around (fenced_think content)
      intro call hcall
      have hfirst := houtside call hcall _ List.mem_cons_self
      rw [Nat.zero_add] at hfirst
      simpa [block, think] using hfirst
    have hlater := ih (fun call hcall other hother => by
      have hshifted := houtside _ (haround.spans call hcall)
        ((before ++ block).length + other.1, (before ++ block).length + other.2) (by
          have hrest := spansFrom_add (p := think) (before ++ block).length 0 segments
          rw [spansFrom, List.mem_cons, Nat.zero_add, ← List.length_append]
          refine .inr ?_
          change _ ∈ spansFrom think ((before ++ block).length + 0) segments
          rw [hrest]
          exact List.mem_map_of_mem hother)
      omega)
    rw [haround.contents, hlater, List.map_cons, List.flatMap_cons, List.append_assoc]

theorem CallsOutside.contents_eq {s : Text} (h : CallsOutside s) : contents toolCall s =
    ((split think s).1.map Prod.fst).flatMap (contents toolCall) ++
      contents toolCall (split think s).2 := by
  have hspec := (split_spec think s).1
  have hassemble := contents_assemble_think (split think s).1 (split think s).2
  rw [← hspec] at hassemble
  exact hassemble h

theorem exists_more_calls {s : Text} (h : (split think s).1 ≠ []) (k : ℕ) :
    ∃ t, SameOutside s t ∧ k ≤ (contents toolCall t).length := by
  obtain ⟨hs, hdecomposed⟩ := split_spec think s
  obtain ⟨⟨before, content⟩, segments, hsegments⟩ := List.exists_cons_of_ne_nil h
  rw [hsegments] at hdecomposed
  have hbefore := hdecomposed.gaps (before, content) List.mem_cons_self
  have hfresh : ¬thinkClose.text <:+: emptyBlocks toolCall k :=
    Tag.skips_nil_iff.1 (Tag.skips_emptyBlocks (p := toolCall) thinkClose_apart_toolOpen
      thinkClose_apart_toolClose k [])
  let t := assemble think ((before, emptyBlocks toolCall k) :: segments) (split think s).2
  have ht : split think t = ((before, emptyBlocks toolCall k) :: segments, (split think s).2) := by
    refine split_eq_iff.2 ⟨rfl, ?_, ?_, hdecomposed.rest⟩
    · exact List.forall_mem_cons.2 ⟨hbefore, hdecomposed.tail.gaps⟩
    · exact List.forall_mem_cons.2 ⟨hfresh, hdecomposed.tail.contents⟩
  refine ⟨t, ?_, ?_⟩
  · rw [SameOutside, ht, hsegments]
    exact ⟨rfl, rfl⟩
  · have hcount := le_length_contents (p := toolCall) toolClose_apart_toolOpen
      (before ++ thinkOpen.text) (thinkClose.text ++ assemble think segments (split think s).2) k
    simp only [List.append_assoc] at hcount
    exact hcount

/-- A text has the tool calls and the answer of all of its variants exactly if it has no think
block. Two variants always have the same answer; they have the same tool calls if none of their
complete tool calls meets a think block. -/
theorem actions_independent_iff (s : Text) :
    ((∀ t, SameOutside s t →
        (parseModelOutput s).toolCalls = (parseModelOutput t).toolCalls ∧
          (parseModelOutput s).finalAnswer = (parseModelOutput t).finalAnswer) ↔
      (split think s).1 = []) ∧
    ∀ t, SameOutside s t →
      (parseModelOutput s).finalAnswer = (parseModelOutput t).finalAnswer ∧
        (CallsOutside s → CallsOutside t →
          (parseModelOutput s).toolCalls = (parseModelOutput t).toolCalls) := by
  constructor
  · constructor
    · intro hsame
      by_contra hne
      obtain ⟨t, houtside, hmore⟩ := exists_more_calls hne ((contents toolCall s).length + 1)
      have hlen := congrArg List.length (hsame t houtside).1
      simp only [parseModelOutput, List.length_map] at hlen
      omega
    · intro hnone t houtside
      have ht : (split think t).1 = [] := by
        simpa [hnone] using houtside.1
      have hs := (split_spec think s).1
      have ht' := (split_spec think t).1
      rw [hnone, assemble] at hs
      rw [ht, assemble] at ht'
      have heq : s = t := by rw [hs, ht', houtside.2]
      exact heq ▸ ⟨rfl, rfl⟩
  · intro t houtside
    refine ⟨houtside.finalAnswer_eq, ?_⟩
    intro hs ht
    rw [parseModelOutput, parseModelOutput]
    dsimp only
    rw [hs.contents_eq, ht.contents_eq, houtside.1, houtside.2]

theorem actions_independent_iff_variants :
    (parseModelOutput "<think>a</think>b".toList).toolCalls =
      (parseModelOutput "<think><tool_call></think>b".toList).toolCalls := by
  apply ((actions_independent_iff _).2 _ ⟨?_, ?_⟩).2
  · rw [CallsOutside]
    decide +kernel
  · rw [CallsOutside]
    decide +kernel
  · decide +kernel
  · decide +kernel

/-- A tool call that is only considered. -/
theorem considered_call_leaks :
    SameOutside "<think>a</think>b".toList "<think><tool_call>x</tool_call></think>b".toList ∧
      (parseModelOutput "<think>a</think>b".toList).toolCalls = [] ∧
      (parseModelOutput "<think><tool_call>x</tool_call></think>b".toList).toolCalls =
        [['x']] := by
  refine ⟨⟨?_, ?_⟩, ?_, ?_⟩ <;> decide +kernel

end Slakshna.Param2
