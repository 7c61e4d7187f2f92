import Mathlib

/-! Names that are one component of a path on every system. -/

namespace TinyCortex.PathName

def separators : List Char := ['/', '\\']

/-- There is something to the name, no separator cuts it, and it is neither the directory itself nor the one
above. -/
structure Safe (name : List Char) : Prop where
  ne_nil : name ≠ []
  whole : ∀ sep ∈ separators, sep ∉ name
  ne_dot : name ≠ ['.']
  ne_dots : name ≠ ['.', '.']

/-- A character other than a dot keeps a name from being a reserved one. -/
theorem Safe.of_mem {name : List Char} {c : Char} (hc : c ∈ name) (hdot : c ≠ '.')
    (hwhole : ∀ sep ∈ separators, sep ∉ name) : Safe name where
  ne_nil := List.ne_nil_of_mem hc
  whole := hwhole
  ne_dot := by
    intro h
    rw [h] at hc
    exact hdot (List.mem_singleton.mp hc)
  ne_dots := by
    intro h
    rw [h] at hc
    rcases List.mem_cons.mp hc with hfirst | hsecond
    · exact hdot hfirst
    · exact hdot (List.mem_singleton.mp hsecond)

end TinyCortex.PathName
