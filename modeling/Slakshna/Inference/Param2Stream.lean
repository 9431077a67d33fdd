import Slakshna.Inference.Param2

/-! Param2StreamDecoder, which sorts the tokens of an output into reasoning, tool calls and answer
while they are generated, against the parser of the whole text. -/
namespace Slakshna.Param2
open Tags

structure Tokenizer where
  decode : List ℕ → Text
  eosTokenId : ℕ

def Tokenizer.strings (tokenizer : Tokenizer) (ids : List ℕ) : List Text :=
  ids.map (fun tokenId => tokenizer.decode [tokenId])

inductive EventType where
  | thinking
  | answer
  | toolCall
  | eos
  deriving DecidableEq

structure Event where
  type : EventType
  text : Text
  deriving DecidableEq

structure Param2StreamDecoder where
  buffer : List Text
  inThinking : Bool
  inTool : Bool
  fullIds : List ℕ
  deriving DecidableEq

namespace Param2StreamDecoder

def init : Param2StreamDecoder := ⟨[], false, false, []⟩

def detect (d : Param2StreamDecoder) (tokenStr : Text) : Param2StreamDecoder × Event :=
  let buffer := d.buffer ++ [tokenStr]
  let joined := buffer.flatten
  if !d.inThinking && !d.inTool then
    if thinkOpen.text <:+: joined then ({ d with buffer := [], inThinking := true }, ⟨.thinking, []⟩)
    else if toolOpen.text <:+: joined then ({ d with buffer := [], inTool := true }, ⟨.toolCall, []⟩)
    else ({ d with buffer := [] }, ⟨.answer, joined⟩)
  else if d.inThinking then
    if thinkClose.text <:+: joined then
      ({ d with buffer := [], inThinking := false }, ⟨.thinking, tokenStr⟩)
    else ({ d with buffer := buffer }, ⟨.thinking, tokenStr⟩)
  else
    if toolClose.text <:+: joined then
      ({ d with buffer := [], inTool := false }, ⟨.toolCall, tokenStr⟩)
    else ({ d with buffer := buffer }, ⟨.toolCall, tokenStr⟩)

def step (tokenizer : Tokenizer) (d : Param2StreamDecoder) (tokenId : ℕ) :
    Param2StreamDecoder × Event :=
  let d := { d with fullIds := d.fullIds ++ [tokenId] }
  let tokenStr := tokenizer.decode [tokenId]
  if tokenId = tokenizer.eosTokenId then (d, ⟨.eos, []⟩)
  else detect d tokenStr

def steps (tokenizer : Tokenizer) : Param2StreamDecoder → List ℕ → Param2StreamDecoder × List Event
  | d, [] => (d, [])
  | d, tokenId :: ids =>
    let now := step tokenizer d tokenId
    let later := steps tokenizer now.1 ids
    (later.1, now.2 :: later.2)

def answerText (events : List Event) : Text :=
  events.flatMap (fun e => if e.type = .answer then e.text else [])

def detects : Param2StreamDecoder → List Text → Param2StreamDecoder × List Event
  | d, [] => (d, [])
  | d, tokenStr :: tokens =>
    let now := detect d tokenStr
    let later := detects now.1 tokens
    (later.1, now.2 :: later.2)

theorem detect_fullIds (d : Param2StreamDecoder) (tokenStr : Text) (ids : List ℕ) :
    detect { d with fullIds := ids } tokenStr =
      ({ (detect d tokenStr).1 with fullIds := ids }, (detect d tokenStr).2) := by
  simp only [detect]
  split_ifs <;> rfl

theorem steps_eq {tokenizer : Tokenizer} {ids : List ℕ} (heos : tokenizer.eosTokenId ∉ ids)
    (d : Param2StreamDecoder) (fullIds : List ℕ) :
    (steps tokenizer { d with fullIds := fullIds } ids).2 =
      (detects d (tokenizer.strings ids)).2 := by
  induction ids generalizing d fullIds with
  | nil => rfl
  | cons tokenId ids ih =>
    have hid : tokenId ≠ tokenizer.eosTokenId :=
      fun heq => heos (heq ▸ List.mem_cons_self)
    have hids : tokenizer.eosTokenId ∉ ids := fun hmem => heos (List.mem_cons_of_mem _ hmem)
    simp only [steps, step, if_neg hid, Tokenizer.strings, List.map_cons, detects]
    rw [detect_fullIds d, ih hids]
    rfl

theorem steps_init {tokenizer : Tokenizer} {ids : List ℕ} (heos : tokenizer.eosTokenId ∉ ids) :
    (steps tokenizer .init ids).2 = (detects .init (tokenizer.strings ids)).2 :=
  steps_eq heos .init []

theorem detects_append (d : Param2StreamDecoder) (xs ys : List Text) :
    detects d (xs ++ ys) = ((detects (detects d xs).1 ys).1,
      (detects d xs).2 ++ (detects (detects d xs).1 ys).2) := by
  induction xs generalizing d with
  | nil => rfl
  | cons x xs ih => simp [detects, ih]

end Param2StreamDecoder

inductive Kind where
  | think
  | tool
  deriving DecidableEq

def Kind.delims : Kind → Delims Char '<'
  | .think => Param2.think
  | .tool => toolCall

def Kind.inside (kind : Kind) (buffer : List Text) : Param2StreamDecoder :=
  ⟨buffer, kind = .think, kind = .tool, []⟩

def Kind.event : Kind → EventType
  | .think => .thinking
  | .tool => .toolCall

def Opens (kind : Kind) (token : Text) : Prop :=
  kind.delims.opening.text <:+: token ∧ (kind = .tool → ¬thinkOpen.text <:+: token)

theorem opens_append (kind : Kind) {before head : Text}
    (hthink : kind = .tool → ¬thinkOpen.text <:+: before ++ (kind.delims.opening.text ++ head)) :
    Opens kind (before ++ (kind.delims.opening.text ++ head)) :=
  ⟨⟨before, head, List.append_assoc ..⟩, hthink⟩

def Closes (kind : Kind) (tokens : List Text) : Prop :=
  kind.delims.closing.text <:+: tokens.flatten ∧ ¬kind.delims.closing.text <:+: tokens.dropLast.flatten

namespace Param2StreamDecoder

theorem detect_answer {u : Text} (hthink : ¬thinkOpen.text <:+: u) (htool : ¬toolOpen.text <:+: u) :
    detect init u = (init, ⟨.answer, u⟩) := by
  simp [detect, init, hthink, htool]

theorem detect_opening {kind : Kind} {token : Text} (h : Opens kind token) :
    ∃ e, detect init token = (kind.inside [], e) ∧ e.type ≠ .answer := by
  obtain ⟨hopening, hthink⟩ := h
  cases kind with
  | think =>
    have hopening : thinkOpen.text <:+: token := hopening
    exact ⟨⟨.thinking, []⟩, by simp [detect, init, Kind.inside, hopening], by simp⟩
  | tool =>
    have hopening : toolOpen.text <:+: token := hopening
    have hthink := hthink rfl
    exact ⟨⟨.toolCall, []⟩, by simp [detect, init, Kind.inside, hopening, hthink], by simp⟩

theorem detect_inside (kind : Kind) (buffer : List Text) (token : Text) :
    detect (kind.inside buffer) token =
      (if kind.delims.closing.text <:+: (buffer ++ [token]).flatten then init
        else kind.inside (buffer ++ [token]), ⟨kind.event, token⟩) := by
  cases kind with
  | think =>
    simp only [detect, Kind.inside, Kind.delims, think, init]
    split_ifs <;> simp_all [Kind.event]
  | tool =>
    simp only [detect, Kind.inside, Kind.delims, toolCall, init]
    split_ifs <;> simp_all [Kind.event]

theorem detects_inside {kind : Kind} {buffer tokens : List Text}
    (h : ¬kind.delims.closing.text <:+: (buffer ++ tokens).flatten) :
    (detects (kind.inside buffer) tokens).1 = kind.inside (buffer ++ tokens) ∧
      answerText (detects (kind.inside buffer) tokens).2 = [] := by
  induction tokens generalizing buffer with
  | nil => simp [detects, answerText]
  | cons token tokens ih =>
    have hlater : ¬kind.delims.closing.text <:+: ((buffer ++ [token]) ++ tokens).flatten := by
      simpa using h
    have hnow : ¬kind.delims.closing.text <:+: (buffer ++ [token]).flatten := by
      intro hmeets
      apply hlater
      rw [List.flatten_append]
      exact hmeets.trans (List.prefix_append _ _).isInfix
    obtain ⟨hstate, hanswer⟩ := ih hlater
    rw [detects, detect_inside, if_neg hnow]
    dsimp only
    refine ⟨by rw [hstate]; simp, ?_⟩
    rw [answerText, List.flatMap_cons, ← answerText, hanswer]
    cases kind with
    | think => rfl
    | tool => rfl

theorem detects_block {kind : Kind} {tokens : List Text} (h : Closes kind tokens) :
    (detects (kind.inside []) tokens).1 = init ∧
      answerText (detects (kind.inside []) tokens).2 = [] := by
  obtain ⟨hclosing, hbefore⟩ := h
  cases tokens using List.reverseRecOn with
  | nil =>
    exfalso
    simp [Tag.text] at hclosing
  | append_singleton tokens last _ =>
    rw [List.dropLast_concat] at hbefore
    have hnot : ¬kind.delims.closing.text <:+: ([] ++ tokens).flatten := hbefore
    obtain ⟨hstate, hanswer⟩ := detects_inside hnot
    rw [detects_append, hstate, List.nil_append, detects, detects, detect_inside, if_pos hclosing]
    refine ⟨rfl, ?_⟩
    rw [answerText, List.flatMap_append, ← answerText, hanswer]
    cases kind with
    | think => rfl
    | tool => rfl

@[simp] theorem answerText_append (xs ys : List Event) :
    answerText (xs ++ ys) = answerText xs ++ answerText ys := List.flatMap_append

@[simp] theorem answerText_cons (e : Event) (events : List Event) :
    answerText (e :: events) = (if e.type = .answer then e.text else []) ++ answerText events :=
  List.flatMap_cons

theorem detects_skips {kind : Kind} {first : Text} {more : List Text} (hopens : Opens kind first)
    (hcloses : Closes kind more) (rest : List Text) :
    answerText (detects init (first :: more ++ rest)).2 = answerText (detects init rest).2 := by
  obtain ⟨e, hdetect, he⟩ := detect_opening hopens
  obtain ⟨hstate, hanswer⟩ := detects_block hcloses
  rw [List.cons_append, detects, hdetect, answerText_cons, if_neg he]
  dsimp only
  rw [detects_append, hstate, answerText_append, hanswer]
  rfl

end Param2StreamDecoder

/-- Some tokens and the text of those in no block. A block goes on to the token that completes its closing
tag, whatever else this token and the first have. -/
inductive Outside : List Text → Text → Prop
  | nil : Outside [] []
  | answer {token : Text} {tokens : List Text} {a : Text} (hthink : ¬thinkOpen.text <:+: token)
      (htool : ¬toolOpen.text <:+: token) (hrest : Outside tokens a) :
      Outside (token :: tokens) (token ++ a)
  | block {kind : Kind} {first : Text} {more tokens : List Text} {a : Text}
      (hopens : Opens kind first) (hcloses : Closes kind more) (hrest : Outside tokens a) :
      Outside (first :: more ++ tokens) a
  | unclosed {kind : Kind} {first : Text} {more : List Text} (hopens : Opens kind first)
      (hopen : ¬kind.delims.closing.text <:+: more.flatten) : Outside (first :: more) []

theorem Outside.answerText {tokens : List Text} {a : Text} (h : Outside tokens a) :
    Param2StreamDecoder.answerText (Param2StreamDecoder.detects .init tokens).2 = a := by
  induction h with
  | nil => rfl
  | answer hthink htool hrest ih =>
    rw [Param2StreamDecoder.detects, Param2StreamDecoder.detect_answer hthink htool,
      Param2StreamDecoder.answerText_cons, ih]
    rfl
  | block hopens hcloses hrest ih => rw [Param2StreamDecoder.detects_skips hopens hcloses, ih]
  | unclosed hopens hopen =>
    obtain ⟨e, hdetect, he⟩ := Param2StreamDecoder.detect_opening hopens
    rw [Param2StreamDecoder.detects, hdetect, Param2StreamDecoder.answerText_cons, if_neg he,
      (Param2StreamDecoder.detects_inside (by simpa using hopen)).2]
    rfl

theorem exists_closes {kind : Kind} {tokens : List Text}
    (h : kind.delims.closing.text <:+: tokens.flatten) :
    ∃ more rest, tokens = more ++ rest ∧ Closes kind more := by
  induction tokens using List.reverseRecOn with
  | nil => simp [Tag.text] at h
  | append_singleton tokens last ih =>
    by_cases hbefore : kind.delims.closing.text <:+: tokens.flatten
    · obtain ⟨more, rest, rfl, hcloses⟩ := ih hbefore
      exact ⟨more, rest ++ [last], List.append_assoc _ _ _, hcloses⟩
    · exact ⟨tokens ++ [last], [], (List.append_nil _).symm, h, by rwa [List.dropLast_concat]⟩

theorem exists_outside (tokens : List Text) : ∃ a, Outside tokens a := by
  induction hn : tokens.length using Nat.strong_induction_on generalizing tokens with
  | _ n ih =>
    subst hn
    cases tokens with
    | nil => exact ⟨[], .nil⟩
    | cons token tokens =>
      by_cases hanswer : ¬thinkOpen.text <:+: token ∧ ¬toolOpen.text <:+: token
      · obtain ⟨a, ha⟩ := ih _ (Nat.lt_succ_self _) tokens rfl
        exact ⟨token ++ a, .answer hanswer.1 hanswer.2 ha⟩
      · obtain ⟨kind, hopens⟩ : ∃ kind, Opens kind token := by
          by_cases hthink : thinkOpen.text <:+: token
          · exact ⟨.think, hthink, nofun⟩
          · exact ⟨.tool, not_not.1 (fun htool => hanswer ⟨hthink, htool⟩), fun _ => hthink⟩
        by_cases hcloses : kind.delims.closing.text <:+: tokens.flatten
        · obtain ⟨more, rest, rfl, hmore⟩ := exists_closes hcloses
          have hshorter : rest.length < (token :: (more ++ rest)).length := by
            rw [List.length_cons, List.length_append]
            omega
          obtain ⟨a, ha⟩ := ih _ hshorter rest rfl
          exact ⟨a, .block hopens hmore ha⟩
        · exact ⟨[], .unclosed hopens hcloses⟩

theorem outside_flatten {tokens : List Text} (hthink : ∀ token ∈ tokens, ¬thinkOpen.text <:+: token)
    (htool : ∀ token ∈ tokens, ¬toolOpen.text <:+: token) : Outside tokens tokens.flatten := by
  induction tokens with
  | nil => exact .nil
  | cons token tokens ih =>
    obtain ⟨hthink, hthinks⟩ := List.forall_mem_cons.1 hthink
    obtain ⟨htool, htools⟩ := List.forall_mem_cons.1 htool
    exact .answer hthink htool (ih hthinks htools)

/-! A text in tokens. -/

/-- A token of the answer, or the tokens of a block: the first has the opening tag, with `before` in
front of it and `head` behind it, and `lost` is what follows the closing tag in the last. -/
inductive Piece where
  | answer (token : Text)
  | block (kind : Kind) (before head : Text) (more : List Text) (content lost : Text)

def Piece.tokens : Piece → List Text
  | .answer token => [token]
  | .block kind before head more _ _ => (before ++ (kind.delims.opening.text ++ head)) :: more

def wholeText (pieces : List Piece) : Text := (pieces.flatMap Piece.tokens).flatten

def thinkless : List Piece → Text
  | [] => []
  | .answer token :: pieces => token ++ thinkless pieces
  | .block .think before _ _ _ lost :: pieces => before ++ (lost ++ thinkless pieces)
  | .block .tool before _ _ content lost :: pieces =>
    before ++ (toolOpen.text ++ (content ++ (toolClose.text ++ (lost ++ thinkless pieces))))

def streamed (pieces : List Piece) : Text :=
  pieces.flatMap (fun
    | .answer token => token
    | .block .. => [])

/-- The tokens of the answer, with the text that shares a token with a tag. -/
def kept (pieces : List Piece) : Text :=
  pieces.flatMap (fun
    | .answer token => token
    | .block _ before _ _ _ lost => before ++ lost)

/-- Every opening tag is in one token, every block is closed by later tokens, and no tag begins in
the text outside of the blocks, not with what follows it either, nor when think blocks are removed.
Think blocks inside of a tool call are closed in it. -/
inductive WellCut : List Piece → Prop
  | nil : WellCut []
  | answer {token : Text} {pieces : List Piece}
      (hthink : thinkOpen.Skips token (wholeText pieces))
      (htool : toolOpen.Skips token (thinkless pieces))
      (hrest : WellCut pieces) : WellCut (.answer token :: pieces)
  | reasoning {before head : Text} {more : List Text} {content lost : Text} {pieces : List Piece}
      (hfirst : ¬thinkOpen.text <:+: before)
      (hcontent : head ++ more.flatten = content ++ (thinkClose.text ++ lost))
      (hinside : ¬thinkClose.text <:+: content)
      (hcloses : Closes .think more)
      (hlost : thinkOpen.Skips lost (wholeText pieces))
      (htool : toolOpen.Skips (before ++ lost) (thinkless pieces))
      (hrest : WellCut pieces) : WellCut (.block .think before head more content lost :: pieces)
  | call {before head : Text} {more : List Text} {content lost : Text} {pieces : List Piece}
      (hfirst : ¬toolOpen.text <:+: before)
      (hthink : ¬thinkOpen.text <:+: before ++ (toolOpen.text ++ head))
      (hseam : thinkOpen.Skips (before ++ toolOpen.text) (head ++ (more.flatten ++ wholeText pieces)))
      (hnested : thinkOpen.Skips (split think (head ++ more.flatten)).2 (wholeText pieces))
      (hcontent : removed think (head ++ more.flatten) = content ++ (toolClose.text ++ lost))
      (hinside : ¬toolClose.text <:+: content)
      (hcloses : Closes .tool more)
      (hlost : toolOpen.Skips lost (thinkless pieces))
      (hrest : WellCut pieces) : WellCut (.block .tool before head more content lost :: pieces)

theorem wholeText_cons (piece : Piece) (pieces : List Piece) :
    wholeText (piece :: pieces) = piece.tokens.flatten ++ wholeText pieces := by
  simp [wholeText]

theorem WellCut.removed_think {pieces : List Piece} (h : WellCut pieces) :
    removed Param2.think (wholeText pieces) = thinkless pieces := by
  induction h with
  | nil => rfl
  | answer hthink htool hrest ih =>
    rw [wholeText_cons, thinkless, ← ih]
    simpa [Piece.tokens] using (split_skip (p := Param2.think) hthink).2
  | @reasoning before head more content lost pieces hfirst hcontent hinside hcloses hlost htool
      hrest ih =>
    have htext : wholeText (.block .think before head more content lost :: pieces) = before ++
        (thinkOpen.text ++ (content ++ (thinkClose.text ++ (lost ++ wholeText pieces)))) := by
      calc
        wholeText (.block .think before head more content lost :: pieces)
            = before ++ (thinkOpen.text ++ ((head ++ more.flatten) ++ wholeText pieces)) := by
              rw [wholeText_cons]
              simp [Piece.tokens, Kind.delims, Param2.think]
        _ = _ := by rw [hcontent]; simp
    have hskip := (split_skip (p := Param2.think) (Tag.skips_of_head hfirst
      (y := thinkOpen.text ++ (content ++ (thinkClose.text ++ (lost ++ wholeText pieces))))
      (by simp [Tag.text]))).2
    have hblock := removed_block (p := Param2.think) hinside (lost ++ wholeText pieces)
    rw [(split_skip (p := Param2.think) hlost).2, ih] at hblock
    rw [htext, hskip, thinkless]
    exact congrArg (before ++ ·) hblock
  | @call before head more content lost pieces hfirst hthink hseam hnested hcontent hinside hcloses
      hlost hrest ih =>
    have htext : wholeText (.block .tool before head more content lost :: pieces) =
        (before ++ toolOpen.text) ++ ((head ++ more.flatten) ++ wholeText pieces) := by
      rw [wholeText_cons]
      simp [Piece.tokens, Kind.delims, toolCall]
    rw [← List.append_assoc] at hseam
    rw [htext, (split_skip (p := Param2.think) hseam).2,
      (split_append (p := Param2.think) hnested).2, hcontent, ih]
    simp [thinkless]

theorem WellCut.removed_toolCall {pieces : List Piece} (h : WellCut pieces) :
    removed toolCall (thinkless pieces) = kept pieces := by
  induction h with
  | nil => rfl
  | answer hthink htool hrest ih =>
    rw [thinkless, (split_skip (p := toolCall) htool).2, ih]
    rfl
  | reasoning hfirst hcontent hinside hcloses hlost htool hrest ih =>
    rw [thinkless, ← List.append_assoc, (split_skip (p := toolCall) htool).2, ih]
    rfl
  | @call before head more content lost pieces hfirst hthink hseam hnested hcontent hinside hcloses
      hlost hrest ih =>
    have hskip := (split_skip (p := toolCall) (Tag.skips_of_head hfirst
      (y := toolOpen.text ++ (content ++ (toolClose.text ++ (lost ++ thinkless pieces))))
      (by simp [Tag.text]))).2
    have hblock := removed_block (p := toolCall) hinside (lost ++ thinkless pieces)
    rw [(split_skip (p := toolCall) hlost).2, ih] at hblock
    rw [thinkless, hskip]
    have hpiece : kept (.block .tool before head more content lost :: pieces) =
        before ++ (lost ++ kept pieces) := by
      simp [kept]
    rw [hpiece]
    exact congrArg (before ++ ·) hblock

theorem WellCut.finalAnswer_eq {pieces : List Piece} (h : WellCut pieces) :
    (parseModelOutput (wholeText pieces)).finalAnswer = strip (kept pieces) := by
  rw [parseModelOutput]
  dsimp only
  rw [finalAnswer, h.removed_think, h.removed_toolCall]

theorem WellCut.outside {pieces : List Piece} (h : WellCut pieces) :
    Outside (pieces.flatMap Piece.tokens) (streamed pieces) := by
  induction h with
  | nil => exact .nil
  | answer hthink htool hrest ih =>
    have hthink := Tag.skips_nil_iff.1 (Tag.Skips.of_append (y := []) hthink)
    have htool := Tag.skips_nil_iff.1 (Tag.Skips.of_append (y := []) htool)
    exact .answer hthink htool ih
  | reasoning hfirst hcontent hinside hcloses hlost htool hrest ih =>
    exact .block (opens_append .think nofun) hcloses ih
  | call hfirst hthink hseam hnested hcontent hinside hcloses hlost hrest ih =>
    exact .block (opens_append .tool (fun _ => hthink)) hcloses ih

theorem streamed_eq_kept {pieces : List Piece}
    (h : ∀ piece ∈ pieces, ∀ kind before head more content lost,
      piece = .block kind before head more content lost → before = [] ∧ lost = []) :
    streamed pieces = kept pieces := by
  apply List.flatMap_congr
  intro piece hpiece
  cases piece with
  | answer token => rfl
  | block kind before head more content lost =>
    obtain ⟨rfl, rfl⟩ := h _ hpiece _ _ _ _ _ _ rfl
    rfl

def tokenizerOf (tokens : List Text) : Tokenizer where
  decode := fun ids => ids.flatMap (fun tokenId => (tokens[tokenId]?).getD [])
  eosTokenId := tokens.length

theorem strings_tokenizerOf (tokens : List Text) :
    (tokenizerOf tokens).strings (List.range tokens.length) = tokens := by
  apply List.ext_getElem
  · simp [Tokenizer.strings]
  · intro i hi hi'
    simp [Tokenizer.strings, tokenizerOf, List.getElem?_eq_getElem hi']

/-- The stripped texts of the answer events are the answer that is parsed. -/
def Agrees (tokenizer : Tokenizer) (ids : List ℕ) : Prop :=
  strip (Param2StreamDecoder.answerText (Param2StreamDecoder.steps tokenizer .init ids).2) =
    (parseModelOutput (tokenizer.strings ids).flatten).finalAnswer

section Agrees
variable {tokenizer : Tokenizer} {ids : List ℕ} (heos : tokenizer.eosTokenId ∉ ids)
include heos

theorem agrees_iff_outside {a : Text} (ha : Outside (tokenizer.strings ids) a) :
    Agrees tokenizer ids ↔
      strip a = strip (removed toolCall (removed think (tokenizer.strings ids).flatten)) := by
  rw [Agrees, Param2StreamDecoder.steps_init heos, ha.answerText]
  rfl

theorem agrees_iff_kept {pieces : List Piece}
    (htokens : tokenizer.strings ids = pieces.flatMap Piece.tokens) (hcut : WellCut pieces) :
    Agrees tokenizer ids ↔ strip (streamed pieces) = strip (kept pieces) := by
  have htext : (tokenizer.strings ids).flatten = wholeText pieces := by rw [htokens, wholeText]
  rw [Agrees, Param2StreamDecoder.steps_init heos, htext, htokens, hcut.outside.answerText,
    hcut.finalAnswer_eq]

end Agrees

theorem agrees_tokenizerOf {tokens : List Text} {a : Text} (ha : Outside tokens a)
    (h : ∀ (tokenizer : Tokenizer) (ids : List ℕ), tokenizer.eosTokenId ∉ ids →
      (tokenizer.strings ids).flatten = tokens.flatten → Agrees tokenizer ids) :
    strip a = strip (removed toolCall (removed think tokens.flatten)) := by
  have heos : (tokenizerOf tokens).eosTokenId ∉ List.range tokens.length := by simp [tokenizerOf]
  have hagrees := h _ _ heos (by rw [strings_tokenizerOf])
  rw [agrees_iff_outside heos (by rwa [strings_tokenizerOf]), strings_tokenizerOf] at hagrees
  exact hagrees

theorem agrees_forall_iff (text : Text) :
    (∀ (tokenizer : Tokenizer) (ids : List ℕ), tokenizer.eosTokenId ∉ ids →
        (tokenizer.strings ids).flatten = text → Agrees tokenizer ids) ↔
      ¬thinkOpen.text <:+: text ∧ ¬toolOpen.text <:+: text := by
  constructor
  · intro hall
    by_contra htag
    have hletters : (text.map (fun c => [c])).flatten = text := by
      rw [← List.flatMap_def, List.flatMap_singleton']
    have hshort : ∀ (g : Tag Char '<'), 2 ≤ g.text.length →
        ∀ token ∈ text.map (fun c => [c]), ¬g.text <:+: token := by
      intro g hg token htoken hmeets
      obtain ⟨c, -, rfl⟩ := List.mem_map.1 htoken
      exact absurd hmeets.length_le (Nat.not_le.2 hg)
    have hone : Outside [text] [] := by
      by_cases hthink : thinkOpen.text <:+: text
      · have hopens : Opens .think text := ⟨hthink, nofun⟩
        exact .unclosed hopens (by simp [Tag.text])
      · have htool : toolOpen.text <:+: text := not_not.1 (fun htool => htag ⟨hthink, htool⟩)
        have hopens : Opens .tool text := ⟨htool, fun _ => hthink⟩
        exact .unclosed hopens (by simp [Tag.text])
    have hwhole := agrees_tokenizerOf hone (by simpa using hall)
    have hsplit := agrees_tokenizerOf
      (outside_flatten (hshort thinkOpen (by decide)) (hshort toolOpen (by decide)))
      (by rwa [hletters])
    rw [hletters] at hsplit
    rw [List.flatten_singleton, ← hsplit] at hwhole
    have hmark : '<' ∈ text := by
      by_contra hmark
      exact htag ⟨fun h => hmark (h.subset List.mem_cons_self),
        fun h => hmark (h.subset List.mem_cons_self)⟩
    exact absurd (isspace_of_strip_eq_nil hwhole.symm '<' hmark) (by decide)
  · rintro ⟨hthink, htool⟩ tokenizer ids heos rfl
    have hfree : ∀ g : Tag Char '<', ¬g.text <:+: (tokenizer.strings ids).flatten →
        ∀ token ∈ tokenizer.strings ids, ¬g.text <:+: token :=
      fun g hg token htoken hmeets => hg (hmeets.trans (List.infix_of_mem_flatten htoken))
    have hanswer := outside_flatten (hfree thinkOpen hthink) (hfree toolOpen htool)
    rw [agrees_iff_outside heos hanswer, removed, removed,
      split_of_not_opening (p := think) hthink]
    dsimp only
    rw [List.flatMap_nil, List.nil_append, split_of_not_opening (p := toolCall) htool]
    rfl

/-- All cuts of a text agree exactly if it has no opening tag. A single cut agrees exactly if the
tokens outside of the blocks of tokens are the text outside of its blocks, but for whitespace at the
ends; if it is well cut, exactly if the text that shares a token with a tag makes no difference. -/
theorem stream_agrees_iff (text : Text) :
    ((∀ (tokenizer : Tokenizer) (ids : List ℕ), tokenizer.eosTokenId ∉ ids →
          (tokenizer.strings ids).flatten = text → Agrees tokenizer ids) ↔
        ¬thinkOpen.text <:+: text ∧ ¬toolOpen.text <:+: text) ∧
      ∀ (tokenizer : Tokenizer) (ids : List ℕ), tokenizer.eosTokenId ∉ ids →
        (tokenizer.strings ids).flatten = text →
        (∃ a, Outside (tokenizer.strings ids) a) ∧
        (∀ a thinkless b, Outside (tokenizer.strings ids) a → Without think text thinkless →
          Without toolCall thinkless b → (Agrees tokenizer ids ↔ strip a = strip b)) ∧
        ∀ pieces, tokenizer.strings ids = pieces.flatMap Piece.tokens → WellCut pieces →
          (Agrees tokenizer ids ↔ strip (streamed pieces) = strip (kept pieces)) := by
  refine ⟨agrees_forall_iff text, ?_⟩
  rintro tokenizer ids heos rfl
  refine ⟨exists_outside _, ?_, fun _ => agrees_iff_kept heos⟩
  intro a thinkless b ha hthink htool
  rw [without_iff.1 htool, without_iff.1 hthink]
  exact agrees_iff_outside heos ha

def cutTokens : List Text :=
  ["Hi".toList, "<think>".toList, "r<".toList, "/think".toList, ">".toList,
    "<tool_call>x".toList, "</tool_call>".toList, " there".toList]

def cutPieces : List Piece :=
  [.answer "Hi".toList, .block .think [] [] ["r<".toList, "/think".toList, ">".toList] ['r'] [],
    .block .tool [] ['x'] ["</tool_call>".toList] ['x'] [], .answer " there".toList]

theorem wellCut_cutPieces : WellCut cutPieces := by
  apply WellCut.answer
  · exact Tag.skips_of_not_mem _ (by decide) _
  · exact Tag.skips_of_not_mem _ (by decide) _
  apply WellCut.reasoning
  · decide
  · decide
  · decide
  · exact ⟨by decide, by decide⟩
  · exact Tag.skips_nil _ _
  · exact Tag.skips_nil _ _
  apply WellCut.call
  · decide
  · decide
  · exact thinkOpen_apart_toolOpen.skips _
  · have hrest : (split think (['x'] ++ ["</tool_call>".toList].flatten)).2 =
        'x' :: toolClose.text := by decide +kernel
    rw [hrest, Tag.skips_cons]
    exact ⟨by decide, thinkOpen_apart_toolClose.skips _⟩
  · decide +kernel
  · decide
  · exact ⟨by decide, by decide⟩
  · exact Tag.skips_nil _ _
  apply WellCut.answer
  · exact Tag.skips_of_not_mem _ (by decide) _
  · exact Tag.skips_of_not_mem _ (by decide) _
  exact WellCut.nil

theorem stream_agrees_iff_cutTokens : Agrees (tokenizerOf cutTokens) (List.range 8) ↔
    strip (streamed cutPieces) = strip (kept cutPieces) :=
  ((stream_agrees_iff cutTokens.flatten).2 (tokenizerOf cutTokens) (List.range 8)
    (by decide +kernel) (by decide +kernel)).2.2 cutPieces (by decide +kernel) wellCut_cutPieces

/-- An opening tag in two tokens is streamed as a part of the answer. -/
theorem split_tag_streams :
    strip (Param2StreamDecoder.answerText (Param2StreamDecoder.steps
        (tokenizerOf ["<thi".toList, "nk>r</think>".toList, "a".toList]) .init [0, 1, 2]).2) =
      "<think>r</think>a".toList ∧
    (parseModelOutput ([0, 1, 2].flatMap (fun tokenId =>
      (tokenizerOf ["<thi".toList, "nk>r</think>".toList, "a".toList]).decode
        [tokenId]))).finalAnswer = ['a'] := by
  constructor <;> decide +kernel

end Slakshna.Param2
