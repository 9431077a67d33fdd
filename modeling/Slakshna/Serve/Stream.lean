import Slakshna.Lib.JsonText

/-! The two ways in which a chat request is answered: as a stream of server-sent events, one for each
chunk of text, and as one response with all the text. The engine is a list of chunks and how it ends;
how many tokens a text has is decided from outside. -/
namespace Slakshna.Stream
open JsonText

/-- What an engine raises. A `BaseException` such as a cancellation is no `Exception`. -/
inductive Failure where
  | exception (text : String)
  | baseException (text : String)
  deriving DecidableEq

structure EngineRun where
  chunks : List String
  failure : Option Failure

structure DeltaMessage where
  role : Option String
  content : Option String

structure ChunkChoice where
  index : ℕ
  delta : DeltaMessage
  finishReason : Option String

structure ChatCompletionChunk where
  id : String
  created : ℕ
  model : String
  choices : List ChunkChoice

def DeltaMessage.dump (d : DeltaMessage) : Text :=
  obj [("role", optional str d.role), ("content", optional str d.content)]

def ChunkChoice.dump (c : ChunkChoice) : Text :=
  obj [("index", num c.index), ("delta", c.delta.dump),
    ("finish_reason", optional str c.finishReason), ("logprobs", null)]

def ChatCompletionChunk.dump (c : ChatCompletionChunk) : Text :=
  obj [("id", str c.id), ("object", str "chat.completion.chunk"), ("created", num c.created),
    ("model", str c.model), ("choices", arr (c.choices.map ChunkChoice.dump))]

inductive Sse where
  | chunk (c : ChatCompletionChunk)
  | done

def Sse.data : Sse → Text
  | .chunk c => c.dump
  | .done => "[DONE]".toList

def Sse.text (e : Sse) : Text := "data: ".toList ++ e.data ++ ['\n', '\n']

def body (events : List Sse) : Text := events.flatMap Sse.text

structure Request where
  id : String
  created : ℕ
  model : String

def Request.chunk (r : Request) (delta : DeltaMessage) (finishReason : Option String) : Sse :=
  .chunk ⟨r.id, r.created, r.model, [⟨0, delta, finishReason⟩]⟩

def roleChunk (r : Request) : Sse := r.chunk ⟨some "assistant", some ""⟩ none

def contentChunk (r : Request) (token : String) : Sse := r.chunk ⟨none, some token⟩ none

def terminalChunk (r : Request) (finishReason : String) : Sse :=
  r.chunk ⟨none, none⟩ (some finishReason)

/-- The reason that the terminal chunk gives, and none where the exception leaves the generator: the
`except Exception` of the loop sets the reason that was set before it. -/
def finishReason : Option Failure → Option String
  | none => some "stop"
  | some (.exception _) => some "stop"
  | some (.baseException _) => none

def streamSse (r : Request) (run : EngineRun) : List Sse :=
  roleChunk r :: run.chunks.map (contentChunk r) ++
    match finishReason run.failure with
    | some reason => [terminalChunk r reason, .done]
    | none => []

def generateFull (run : EngineRun) : Except Failure String :=
  match run.failure with
  | none => .ok (String.join run.chunks)
  | some failure => .error failure

structure UsageInfo where
  promptTokens : ℕ
  completionTokens : ℕ
  totalTokens : ℕ

structure ChatCompletionResponse where
  id : String
  created : ℕ
  model : String
  index : ℕ
  content : String
  finishReason : String
  usage : UsageInfo

inductive Answer where
  | ok (response : ChatCompletionResponse)
  | httpException (status : ℕ) (detail : String)
  | raised (text : String)

def chatCompletions (countTokens : String → ℕ) (r : Request) (prompt : String) (run : EngineRun) :
    Answer :=
  match generateFull run with
  | .ok fullText =>
    let promptTokens := countTokens prompt
    let completionTokens := countTokens fullText
    .ok ⟨r.id, r.created, r.model, 0, fullText, "stop",
      ⟨promptTokens, completionTokens, promptTokens + completionTokens⟩⟩
  | .error (.exception text) => .httpException 500 text
  | .error (.baseException text) => .raised text

def Sse.content : Sse → String
  | .chunk c => String.join (c.choices.map (fun choice => choice.delta.content.getD ""))
  | .done => ""

def deltaContents (events : List Sse) : String := String.join (events.map Sse.content)

def Determines (countTokens : String → ℕ) (r : Request) (prompt : String) (run : EngineRun) : Prop :=
  (run.failure = none → ∃ response, chatCompletions countTokens r prompt run = .ok response ∧
    deltaContents (streamSse r run) = response.content) ∧
  (run.failure ≠ none → ∀ (r' : Request) (chunks : List String),
    body (streamSse r run) ≠ body (streamSse r' ⟨chunks, none⟩))

theorem content_chunk (r : Request) (delta : DeltaMessage) (reason : Option String) :
    (r.chunk delta reason).content = delta.content.getD "" := by
  simp [Request.chunk, Sse.content, String.join_cons]

theorem deltaContents_contentChunks (r : Request) (chunks : List String) :
    deltaContents (chunks.map (contentChunk r)) = String.join chunks := by
  induction chunks with
  | nil => rfl
  | cons token chunks ih =>
    have hcons : deltaContents ((token :: chunks).map (contentChunk r)) =
        (contentChunk r token).content ++ deltaContents (chunks.map (contentChunk r)) :=
      String.join_cons
    rw [hcons, ih, String.join_cons, contentChunk, content_chunk]
    rfl

theorem deltaContents_append (as bs : List Sse) :
    deltaContents (as ++ bs) = deltaContents as ++ deltaContents bs := by
  rw [deltaContents, List.map_append, String.join_append]
  rfl

theorem deltaContents_streamSse (r : Request) (run : EngineRun) :
    deltaContents (streamSse r run) = String.join run.chunks := by
  have hrole : deltaContents [roleChunk r] = "" := by
    simp [deltaContents, roleChunk, content_chunk, String.join_cons]
  have hdone : Sse.done.content = "" := rfl
  have hend : ∀ reason, deltaContents [terminalChunk r reason, .done] = "" := by
    intro reason
    simp [deltaContents, terminalChunk, content_chunk, String.join_cons, hdone]
  rw [streamSse, deltaContents_append, ← List.singleton_append, deltaContents_append, hrole,
    deltaContents_contentChunks]
  cases finishReason run.failure with
  | none => simp [deltaContents]
  | some reason => simp [hend reason]

theorem text_eq (e : Sse) : e.text = "data: ".toList ++ (e.data ++ ['\n', '\n']) :=
  List.append_assoc _ _ _

theorem body_concat (events : List Sse) (e : Sse) :
    body (events ++ [e]) = body events ++ e.text := by
  simp [body]

theorem body_done (r : Request) (chunks : List String) :
    ∃ front, body (streamSse r ⟨chunks, none⟩) = front ++ [']', '\n', '\n'] := by
  have hevents : streamSse r ⟨chunks, none⟩ =
      (roleChunk r :: chunks.map (contentChunk r) ++ [terminalChunk r "stop"]) ++ [.done] := by
    simp [streamSse, finishReason]
  have htext : Sse.done.text = "data: [DONE".toList ++ [']', '\n', '\n'] := by decide
  rw [hevents, body_concat, htext, ← List.append_assoc]
  exact ⟨_, rfl⟩

theorem text_chunk (c : ChatCompletionChunk) :
    ∃ front, (Sse.chunk c).text = front ++ ['\x7d', '\n', '\n'] := by
  have hlast : c.dump.getLast? = some '\x7d' := obj_getLast _
  obtain ⟨front, hdump⟩ := List.getLast?_eq_some_iff.1 hlast
  have htext : (Sse.chunk c).text = "data: ".toList ++ (c.dump ++ ['\n', '\n']) := text_eq _
  rw [htext, hdump, List.append_assoc, ← List.append_assoc]
  exact ⟨_, rfl⟩

theorem body_cut (r : Request) (chunks : List String) (text : String) :
    ∃ front, body (streamSse r ⟨chunks, some (.baseException text)⟩) =
      front ++ ['\x7d', '\n', '\n'] := by
  have hevents : streamSse r ⟨chunks, some (.baseException text)⟩ =
      roleChunk r :: chunks.map (contentChunk r) := by
    simp [streamSse, finishReason]
  have hlast : ∃ front c, roleChunk r :: chunks.map (contentChunk r) = front ++ [Sse.chunk c] := by
    cases List.eq_nil_or_concat chunks with
    | inl hnil =>
      rw [hnil]
      exact ⟨[], _, rfl⟩
    | inr hconcat =>
      obtain ⟨before, token, hconcat⟩ := hconcat
      rw [hconcat, List.concat_eq_append, List.map_append, ← List.cons_append]
      exact ⟨_, _, rfl⟩
  obtain ⟨front, c, hlast⟩ := hlast
  obtain ⟨front', htext⟩ := text_chunk c
  rw [hevents, hlast, body_concat, htext, ← List.append_assoc]
  exact ⟨body front ++ front', rfl⟩

theorem newline_not_mem_delta (d : DeltaMessage) : '\n' ∉ d.dump := by
  apply newline_not_mem_obj
  intro f hf
  simp only [List.mem_cons, List.not_mem_nil, or_false] at hf
  obtain rfl | rfl := hf
  · exact newline_not_mem_optional
  · exact newline_not_mem_optional

theorem newline_not_mem_choice (c : ChunkChoice) : '\n' ∉ c.dump := by
  apply newline_not_mem_obj
  intro f hf
  simp only [List.mem_cons, List.not_mem_nil, or_false] at hf
  obtain rfl | rfl | rfl | rfl := hf
  · exact newline_not_mem_num c.index
  · exact newline_not_mem_delta c.delta
  · exact newline_not_mem_optional
  · decide

theorem newline_not_mem_chunk (c : ChatCompletionChunk) : '\n' ∉ c.dump := by
  apply newline_not_mem_obj
  intro f hf
  simp only [List.mem_cons, List.not_mem_nil, or_false] at hf
  obtain rfl | rfl | rfl | rfl | rfl := hf
  · exact newline_not_mem_str c.id
  · exact newline_not_mem_str _
  · exact newline_not_mem_num c.created
  · exact newline_not_mem_str c.model
  · apply newline_not_mem_arr
    intro t ht
    obtain ⟨choice, _, rfl⟩ := List.mem_map.1 ht
    exact newline_not_mem_choice choice

theorem newline_not_mem_data (e : Sse) : '\n' ∉ e.data := by
  cases e with
  | chunk c => exact newline_not_mem_chunk c
  | done => decide

theorem body_cons (e : Sse) (events : List Sse) :
    body (e :: events) = "data: ".toList ++ (e.data ++ '\n' :: '\n' :: body events) := by
  simp [body, text_eq]

theorem data_eq_of_body_eq {as bs : List Sse} (h : body as = body bs) :
    as.map Sse.data = bs.map Sse.data := by
  induction as generalizing bs with
  | nil =>
    cases bs with
    | nil => rfl
    | cons b bs =>
      rw [body_cons] at h
      cases h
  | cons a as ih =>
    cases bs with
    | nil =>
      rw [body_cons] at h
      cases h
    | cons b bs =>
      rw [body_cons, body_cons] at h
      obtain ⟨hdata, hrest⟩ := line_append_inj (newline_not_mem_data a) (newline_not_mem_data b)
        (List.append_cancel_left h)
      rw [List.map_cons, List.map_cons, hdata, ih (List.cons.inj hrest).2]

theorem contentChunk_data_injective (r : Request) :
    Function.Injective (fun token => (contentChunk r token).data) := by
  have haround := ((Around.refl.obj [("role", null)] [] "content").obj [("index", num 0)]
    [("finish_reason", null), ("logprobs", null)] "delta").arr.obj
    [("id", str r.id), ("object", str "chat.completion.chunk"), ("created", num r.created),
      ("model", str r.model)] [] "choices"
  exact haround.injective.comp str_injective

theorem chunks_eq_of_body_eq (r : Request) {chunks chunks' : List String}
    (h : body (streamSse r ⟨chunks, none⟩) = body (streamSse r ⟨chunks', none⟩)) :
    chunks = chunks' := by
  have hdata := data_eq_of_body_eq h
  simp only [streamSse, finishReason, List.map_append, List.map_cons, List.map_map] at hdata
  have hcontents := List.append_cancel_right (List.cons.inj hdata).2
  exact (contentChunk_data_injective r).list_map hcontents

theorem streamSse_exception (r : Request) (chunks : List String) (text : String) :
    streamSse r ⟨chunks, some (.exception text)⟩ = streamSse r ⟨chunks, none⟩ := rfl

/-- The stream tells how the run ended exactly if the engine raises no `Exception`. -/
theorem streamSse_determines_iff (countTokens : String → ℕ) (r : Request) (prompt : String)
    (run : EngineRun) : Determines countTokens r prompt run ↔
      ∀ text, run.failure ≠ some (.exception text) := by
  obtain ⟨chunks, failure⟩ := run
  constructor
  · rintro h text rfl
    exact h.2 nofun r chunks (congrArg body (streamSse_exception r chunks text))
  · intro h
    cases failure with
    | none => exact ⟨fun _ => ⟨_, rfl, deltaContents_streamSse r _⟩, fun hne => absurd rfl hne⟩
    | some failure =>
      cases failure with
      | exception text => exact absurd rfl (h text)
      | baseException text =>
        refine ⟨nofun, ?_⟩
        intro _ r' chunks' heq
        obtain ⟨front, hcut⟩ := body_cut r chunks text
        obtain ⟨front', hdone⟩ := body_done r' chunks'
        rw [hcut, hdone] at heq
        have htail := (List.append_inj' heq rfl).2
        revert htail
        decide

/-- The engine fails at once, and the body is that of an empty answer. -/
theorem failure_unseen :
    ¬∀ run, Determines (fun _ => 0) ⟨"chatcmpl-0", 0, "m"⟩ "" run := by
  intro h
  exact (h ⟨[], some (.exception "out of memory")⟩).2 nofun ⟨"chatcmpl-0", 0, "m"⟩ [] rfl

end Slakshna.Stream
