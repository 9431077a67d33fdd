import Mathlib.Data.List.Basic
import Mathlib.Tactic.IntervalCases

/-! Compact JSON text, with the escapes of strings. -/
namespace Slakshna.JsonText

abbrev Text := List Char

def hexDigit (n : ℕ) : Char := Nat.digitChar (n % 16)

def escape (c : Char) : Text :=
  if c = '"' then ['\\', '"']
  else if c = '\\' then ['\\', '\\']
  else if c = '\n' then ['\\', 'n']
  else if c = '\r' then ['\\', 'r']
  else if c = '\t' then ['\\', 't']
  else if c.toNat = 8 then ['\\', 'b']
  else if c.toNat = 12 then ['\\', 'f']
  else if c.toNat < 32 then ['\\', 'u', '0', '0', hexDigit (c.toNat / 16), hexDigit c.toNat]
  else [c]

def str (s : String) : Text := '"' :: (s.toList.flatMap escape ++ ['"'])

def num (n : ℕ) : Text := Nat.toDigits 10 n

def null : Text := "null".toList

def optional {α : Type} (text : α → Text) : Option α → Text
  | none => null
  | some a => text a

def commas : List Text → Text
  | [] => []
  | [t] => t
  | t :: ts => t ++ ',' :: commas ts

def arr (items : List Text) : Text := '[' :: (commas items ++ [']'])

def obj (fields : List (String × Text)) : Text :=
  '\x7b' :: (commas (fields.map (fun f => str f.1 ++ ':' :: f.2)) ++ ['\x7d'])

def hexValue (c : Char) : ℕ := if c.isDigit then c.toNat - 48 else c.toNat - 87

def shortEscape (c : Char) : Char :=
  if c = 'n' then '\n' else if c = 'r' then '\r' else if c = 't' then '\t'
  else if c = 'b' then Char.ofNat 8 else if c = 'f' then Char.ofNat 12 else c

def readChar : Text → Option (Char × Text)
  | '\\' :: 'u' :: '0' :: '0' :: h :: l :: rest =>
    some (Char.ofNat (hexValue h * 16 + hexValue l), rest)
  | '\\' :: c :: rest => some (shortEscape c, rest)
  | c :: rest => some (c, rest)
  | [] => none

inductive Kind (c : Char) : Prop where
  | control (n : ℕ) (hn : n < 32) (h : c = Char.ofNat n)
  | quote (h : c = '"')
  | backslash (h : c = '\\')
  | plain (hescape : escape c = [c]) (hquote : c ≠ '"') (hbackslash : c ≠ '\\') (hline : c ≠ '\n')

theorem kind (c : Char) : Kind c := by
  by_cases hcontrol : c.toNat < 32
  · exact .control c.toNat hcontrol (Char.ofNat_toNat c).symm
  by_cases hquote : c = '"'
  · exact .quote hquote
  by_cases hbackslash : c = '\\'
  · exact .backslash hbackslash
  have hne : ∀ d : Char, d.toNat < 32 → c ≠ d := fun d hd h => hcontrol (h ▸ hd)
  refine .plain ?_ hquote hbackslash (hne '\n' (by decide))
  rw [escape, if_neg hquote, if_neg hbackslash, if_neg (hne '\n' (by decide)),
    if_neg (hne '\r' (by decide)), if_neg (hne '\t' (by decide)), if_neg (by omega),
    if_neg (by omega), if_neg hcontrol]

theorem readChar_escape (c : Char) (rest : Text) :
    readChar (escape c ++ rest) = some (c, rest) := by
  cases kind c with
  | control n hn h =>
    subst h
    interval_cases n <;> rfl
  | quote h =>
    subst h
    rfl
  | backslash h =>
    subst h
    rfl
  | plain hescape hquote hbackslash hline =>
    rw [hescape, List.singleton_append, readChar]
    all_goals simp [hbackslash]

theorem newline_not_mem_escape (c : Char) : '\n' ∉ escape c := by
  cases kind c with
  | control n hn h =>
    subst h
    interval_cases n <;> decide
  | quote h =>
    subst h
    decide
  | backslash h =>
    subst h
    decide
  | plain hescape hquote hbackslash hline =>
    rw [hescape, List.mem_singleton]
    exact fun h => hline h.symm

theorem escape_ne_quote (c : Char) (rest tail : Text) : escape c ++ rest ≠ '"' :: tail := by
  cases kind c with
  | control n hn h =>
    subst h
    interval_cases n <;> nofun
  | quote h =>
    subst h
    nofun
  | backslash h =>
    subst h
    nofun
  | plain hescape hquote hbackslash hline =>
    rw [hescape]
    exact fun h => hquote (List.cons.inj h).1

theorem escape_append_inj {c d : Char} {a b : Text} (h : escape c ++ a = escape d ++ b) :
    c = d ∧ a = b := by
  have hread := congrArg readChar h
  rw [readChar_escape, readChar_escape] at hread
  cases hread
  exact ⟨rfl, rfl⟩

theorem chars_append_inj {s t : List Char} {a b : Text}
    (h : s.flatMap escape ++ '"' :: a = t.flatMap escape ++ '"' :: b) : s = t ∧ a = b := by
  induction s generalizing t with
  | nil =>
    cases t with
    | nil => exact ⟨rfl, (List.cons.inj h).2⟩
    | cons d t =>
      rw [List.flatMap_cons, List.append_assoc] at h
      exact absurd h.symm (escape_ne_quote d _ _)
  | cons c s ih =>
    cases t with
    | nil =>
      rw [List.flatMap_cons, List.append_assoc] at h
      exact absurd h (escape_ne_quote c _ _)
    | cons d t =>
      rw [List.flatMap_cons, List.flatMap_cons, List.append_assoc, List.append_assoc] at h
      obtain ⟨hcd, hrest⟩ := escape_append_inj h
      obtain ⟨hst, hab⟩ := ih hrest
      exact ⟨by rw [hcd, hst], hab⟩

theorem str_injective : Function.Injective str := by
  intro s t h
  exact String.toList_inj.1 (chars_append_inj (List.cons.inj h).2).1

theorem newline_not_mem_str (s : String) : '\n' ∉ str s := by
  have hchars : '\n' ∉ s.toList.flatMap escape := by
    intro h
    obtain ⟨c, _, hc⟩ := List.mem_flatMap.1 h
    exact newline_not_mem_escape c hc
  simp [str, hchars]

theorem newline_not_mem_num (n : ℕ) : '\n' ∉ num n := by
  intro h
  exact absurd (Nat.isDigit_of_mem_toDigits (by decide) (by decide) h) (by decide)

theorem newline_not_mem_optional {o : Option String} : '\n' ∉ optional str o := by
  cases o with
  | none => decide
  | some s => exact newline_not_mem_str s

theorem newline_not_mem_commas {ts : List Text} (h : ∀ t ∈ ts, '\n' ∉ t) : '\n' ∉ commas ts := by
  induction ts with
  | nil => nofun
  | cons t ts ih =>
    have ht := h t List.mem_cons_self
    cases ts with
    | nil => exact ht
    | cons u us =>
      have hrest := ih (fun v hv => h v (List.mem_cons_of_mem t hv))
      simp [commas, ht, hrest]

theorem newline_not_mem_arr {ts : List Text} (h : ∀ t ∈ ts, '\n' ∉ t) : '\n' ∉ arr ts := by
  have hitems := newline_not_mem_commas h
  simp [arr, hitems]

theorem newline_not_mem_obj {fields : List (String × Text)} (h : ∀ f ∈ fields, '\n' ∉ f.2) :
    '\n' ∉ obj fields := by
  have hitems : '\n' ∉ commas (fields.map (fun f => str f.1 ++ ':' :: f.2)) := by
    apply newline_not_mem_commas
    intro t ht
    obtain ⟨f, hf, rfl⟩ := List.mem_map.1 ht
    simp [newline_not_mem_str, h f hf]
  simp [obj, hitems]

theorem line_append_inj {s t a b : Text} (hs : '\n' ∉ s) (ht : '\n' ∉ t)
    (h : s ++ '\n' :: a = t ++ '\n' :: b) : s = t ∧ a = b := by
  induction s generalizing t with
  | nil =>
    cases t with
    | nil => exact ⟨rfl, (List.cons.inj h).2⟩
    | cons d t => exact absurd (List.mem_cons.2 (.inl (List.cons.inj h).1)) ht
  | cons c s ih =>
    cases t with
    | nil => exact absurd (List.mem_cons.2 (.inl (List.cons.inj h).1.symm)) hs
    | cons d t =>
      obtain ⟨hcd, hrest⟩ := List.cons.inj h
      obtain ⟨hst, hab⟩ := ih (List.not_mem_of_not_mem_cons hs) (List.not_mem_of_not_mem_cons ht)
        hrest
      exact ⟨by rw [hcd, hst], hab⟩

theorem obj_getLast (fields : List (String × Text)) : (obj fields).getLast? = some '\x7d' := by
  rw [obj, ← List.cons_append, List.getLast?_concat]

def Around (f : Text → Text) : Prop := ∃ front back, ∀ t, f t = front ++ (t ++ back)

theorem Around.refl : Around (fun t => t) := ⟨[], [], fun t => by simp⟩

theorem Around.between {f : Text → Text} (hf : Around f) (front back : Text) :
    Around (fun t => front ++ (f t ++ back)) := by
  obtain ⟨front', back', hf⟩ := hf
  exact ⟨front ++ front', back' ++ back, fun t => by simp [hf t]⟩

theorem Around.injective {f : Text → Text} (hf : Around f) : Function.Injective f := by
  obtain ⟨front, back, hf⟩ := hf
  intro s t h
  rw [hf s, hf t] at h
  exact List.append_cancel_right (List.append_cancel_left h)

theorem Around.commas {f : Text → Text} (hf : Around f) (before after : List Text) :
    Around (fun t => commas (before ++ f t :: after)) := by
  induction before with
  | nil =>
    cases after with
    | nil => exact hf
    | cons u us => exact hf.between [] (',' :: JsonText.commas (u :: us))
  | cons b before ih =>
    have htail := ih.between (b ++ [',']) []
    convert htail using 2 with t
    cases before with
    | nil => simp [JsonText.commas]
    | cons c before => simp [JsonText.commas]

theorem Around.arr {f : Text → Text} (hf : Around f) : Around (fun t => arr [f t]) :=
  (hf.commas [] []).between ['['] [']']

theorem Around.obj {f : Text → Text} (hf : Around f) (before after : List (String × Text))
    (key : String) : Around (fun t => obj (before ++ (key, f t) :: after)) := by
  have hfield := ((hf.between (str key ++ [':']) []).commas
    (before.map (fun f => str f.1 ++ ':' :: f.2))
    (after.map (fun f => str f.1 ++ ':' :: f.2))).between ['\x7b'] ['\x7d']
  convert hfield using 2 with t
  simp [JsonText.obj]

end Slakshna.JsonText
