/-!
The lines of a text. A line ends at a line feed, one carriage return right before it goes with it,
and a final line feed starts no further line.
-/
namespace MetricRelay.Text

def lines : List Char → List (List Char)
  | [] => []
  | '\r' :: '\n' :: cs => [] :: lines cs
  | '\n' :: cs => [] :: lines cs
  | c :: cs =>
    match lines cs with
    | [] => [[c]]
    | l :: ls => (c :: l) :: ls

/-- The parts of `cs` between the separators `sep`: one more than there are separators. -/
def splitOn (sep : Char) : List Char → List (List Char)
  | [] => [[]]
  | c :: cs =>
    if c = sep then [] :: splitOn sep cs
    else match splitOn sep cs with
      | [] => [[c]]
      | l :: ls => (c :: l) :: ls

/-- Cut at the first `sep`, which belongs to neither part. -/
def cutAt? (sep : Char) : List Char → Option (List Char × List Char)
  | [] => none
  | c :: cs => if c = sep then some ([], cs) else (cutAt? sep cs).map fun (a, b) => (c :: a, b)

theorem length_of_cutAt? {sep : Char} {cs a b : List Char} (h : cutAt? sep cs = some (a, b)) :
    a.length + b.length + 1 = cs.length := by
  induction cs generalizing a b with
  | nil => simp [cutAt?] at h
  | cons c cs ih =>
    by_cases hc : c = sep
    · simp only [cutAt?, hc, if_true, Option.some.injEq, Prod.mk.injEq] at h
      obtain ⟨rfl, rfl⟩ := h
      simp
    · simp only [cutAt?, hc, if_false, Option.map_eq_some_iff, Prod.mk.injEq, Prod.exists] at h
      obtain ⟨a', b', h', rfl, rfl⟩ := h
      have := ih h'
      simp only [List.length_cons]
      omega

end MetricRelay.Text
