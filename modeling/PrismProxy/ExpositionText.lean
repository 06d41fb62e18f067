import Mathlib.Data.List.Basic

/-! # Families of samples as lines of text

A family is written as two comment lines and one line with its name and its value. A reader
takes every line that is no comment for a sample. How a value is written is a parameter. -/
namespace ExpositionText

variable {α : Type*}

structure Family (α : Type*) where
  name : List Char
  help : List Char
  kind : List Char
  value : α

def Family.sample (text : α → List Char) (f : Family α) : List Char :=
  f.name ++ ' ' :: text f.value

def Family.comments (f : Family α) : List (List Char) :=
  [['#', ' ', 'H', 'E', 'L', 'P', ' '] ++ f.name ++ ' ' :: f.help,
    ['#', ' ', 'T', 'Y', 'P', 'E', ' '] ++ f.name ++ ' ' :: f.kind]

def Family.lines (text : α → List Char) (f : Family α) : List (List Char) :=
  f.comments ++ [f.sample text]

def writeLines (lines : List (List Char)) : List Char := lines.flatMap fun line => line ++ ['\n']

def write (text : α → List Char) (families : List (Family α)) : List Char :=
  writeLines (families.flatMap (Family.lines text))

theorem write_cons (text : α → List Char) (f : Family α) (families : List (Family α)) :
    write text (f :: families) = writeLines (f.lines text) ++ write text families := by
  simp only [write, writeLines, List.flatMap_cons, List.flatMap_append]

def isSample : List Char → Bool
  | [] => false
  | c :: _ => c != '#'

def readSample (parse : List Char → Option α) (line : List Char) : Option (List Char × α) :=
  match line.splitOn ' ' with
  | [name, value] => (parse value).map fun v => (name, v)
  | _ => none

def read (parse : List Char → Option α) (s : List Char) : Option (List (List Char × α)) :=
  ((s.splitOn '\n').filter isSample).mapM (readSample parse)

theorem splitOn_writeLines {lines : List (List Char)} (h : ∀ line ∈ lines, '\n' ∉ line) :
    (writeLines lines).splitOn '\n' = lines ++ [[]] := by
  induction lines with
  | nil => rfl
  | cons line lines ih =>
    obtain ⟨hline, hlines⟩ := List.forall_mem_cons.mp h
    have hcons : writeLines (line :: lines) = line ++ '\n' :: writeLines lines := by
      simp [writeLines]
    rw [hcons, List.splitOn_append_cons_self_of_not_mem hline, ih hlines, List.cons_append]

/-- Nothing in a family breaks its lines: the name is one word that starts no comment, the value
one word. -/
structure Family.Plain (text : α → List Char) (f : Family α) : Prop where
  start : isSample f.name = true
  name : ∀ c ∈ f.name, c ≠ ' ' ∧ c ≠ '\n'
  help : '\n' ∉ f.help
  kind : '\n' ∉ f.kind
  value : ∀ c ∈ text f.value, c ≠ ' ' ∧ c ≠ '\n'

variable {text : α → List Char} {parse : List Char → Option α}

theorem Family.Plain.lines {f : Family α} (h : f.Plain text) :
    ∀ line ∈ f.lines text, '\n' ∉ line := by
  have hname : '\n' ∉ f.name := fun hm => (h.name _ hm).2 rfl
  have hvalue : '\n' ∉ text f.value := fun hm => (h.value _ hm).2 rfl
  intro line hline
  simp only [Family.lines, Family.comments, Family.sample, List.cons_append, List.nil_append,
    List.mem_cons, List.not_mem_nil, or_false] at hline
  rcases hline with rfl | rfl | rfl
  · simp [hname, h.help]
  · simp [hname, h.kind]
  · simp [hname, hvalue]

theorem Family.Plain.samples {f : Family α} (h : f.Plain text) :
    (f.lines text).filter isSample = [f.sample text] := by
  have hsample : isSample (f.sample text) = true := by
    have hstart := h.start
    unfold Family.sample
    cases hn : f.name with
    | nil => simp [hn, isSample] at hstart
    | cons c rest => simpa [hn, isSample] using hstart
  have hcomments : f.comments.filter isSample = [] := rfl
  rw [Family.lines, List.filter_append, hcomments, List.nil_append,
    List.filter_cons_of_pos hsample, List.filter_nil]

theorem Family.Plain.read {f : Family α} (h : f.Plain text)
    (hp : parse (text f.value) = some f.value) :
    readSample parse (f.sample text) = some (f.name, f.value) := by
  have hname : ' ' ∉ f.name := fun hm => (h.name _ hm).1 rfl
  have hvalue : ' ' ∉ text f.value := fun hm => (h.value _ hm).1 rfl
  have hsplit : (f.sample text).splitOn ' ' = [f.name, text f.value] := by
    rw [Family.sample, List.splitOn_append_cons_self_of_not_mem hname,
      List.splitOn_eq_singleton hvalue]
  simp only [readSample, hsplit, hp, Option.map_some]

theorem read_write {families : List (Family α)} (h : ∀ f ∈ families, f.Plain text)
    (hp : ∀ f ∈ families, parse (text f.value) = some f.value) :
    read parse (write text families) = some (families.map fun f => (f.name, f.value)) := by
  have hlines : ∀ line ∈ families.flatMap (Family.lines text), '\n' ∉ line := by
    intro line hline
    obtain ⟨f, hf, hl⟩ := List.mem_flatMap.mp hline
    exact (h f hf).lines line hl
  rw [read, write, splitOn_writeLines hlines, List.filter_append]
  have hempty : [([] : List Char)].filter isSample = [] := rfl
  rw [hempty, List.append_nil]
  clear hlines
  induction families with
  | nil => rfl
  | cons f families ih =>
    obtain ⟨hf, hrest⟩ := List.forall_mem_cons.mp h
    obtain ⟨hpf, hprest⟩ := List.forall_mem_cons.mp hp
    rw [List.flatMap_cons, List.filter_append, hf.samples, List.singleton_append, List.mapM_cons,
      hf.read hpf, ih hrest hprest]
    rfl

end ExpositionText
