import PrismProxy.ProxyPlugin

/-! # Requests, responses and header maps

A header map is its list of entries, names in lower case, in the order an iteration gives
them. The order between different names means nothing to HTTP; the order of the values of one
name does. -/
namespace HttpMessage

open ProxyPlugin (Bytes asBytes)

abbrev HeaderMap := List (String × String)

def HeaderMap.values (h : HeaderMap) (name : String) : List String :=
  (h.filter fun e => e.1 == name).map Prod.snd

def HeaderMap.get (h : HeaderMap) (name : String) : Option String := (h.values name).head?

/-- All values of the name go. -/
def HeaderMap.remove (h : HeaderMap) (name : String) : HeaderMap := h.filter fun e => e.1 != name

/-- One value in place of whatever the name had. -/
def HeaderMap.insert (h : HeaderMap) (name value : String) : HeaderMap :=
  h.remove name ++ [(name, value)]

theorem HeaderMap.values_remove (h : HeaderMap) (name other : String) :
    (h.remove name).values other = if other = name then [] else h.values other := by
  simp only [values, remove, List.filter_filter]
  by_cases ho : other = name
  · subst ho
    rw [if_pos rfl, List.map_eq_nil_iff, List.filter_eq_nil_iff]
    intro e _
    simp
  · rw [if_neg ho]
    congr 1
    refine List.filter_congr fun e _ => ?_
    by_cases he : e.1 = other
    · simp [he, ho]
    · simp [he]

theorem HeaderMap.values_insert (h : HeaderMap) (name value other : String) :
    (h.insert name value).values other = if other = name then [value] else h.values other := by
  have hsplit : (h.insert name value).values other =
      (h.remove name).values other ++ HeaderMap.values [(name, value)] other := by
    simp [values, insert]
  rw [hsplit, values_remove]
  by_cases ho : other = name
  · simp [ho, values]
  · simp [ho, values, Ne.symm ho]

/-- `http::Uri`. A target in origin form has neither scheme nor authority, one in absolute form
and that of an HTTP/2 request have both. -/
structure Uri where
  scheme : Option String
  authority : Option String
  path : String
  query : Option String
  deriving DecidableEq, Repr

def Uri.origin (path : String) (query : Option String) : Uri := ⟨none, none, path, query⟩

structure Request where
  method : String
  uri : Uri
  headers : HeaderMap
  body : Bytes
  deriving DecidableEq

structure Response where
  status : ℕ
  headers : HeaderMap
  body : Bytes
  deriving DecidableEq

def textResponse (status : ℕ) (contentType body : String) : Response :=
  ⟨status, [("content-type", contentType)], asBytes body⟩

end HttpMessage
