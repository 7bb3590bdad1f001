import OmegaLb.GoText

/-! Clean and Join of path/filepath where the separator is a slash. A path is read element by
element: empty ones and dots are dropped, and ".." takes back the element before it. -/
namespace OmegaLb.FilePath
open GoText (Bytes)

def separator : UInt8 := 47

def dot : Bytes := [46]

def dotdot : Bytes := [46, 46]

def pieces : Bytes → List Bytes
  | [] => [[]]
  | b :: rest =>
    if b = separator then [] :: pieces rest
    else match pieces rest with
      | [] => [[b]]
      | piece :: more => (b :: piece) :: more

/-- The elements so far, the last one first. -/
def element (rooted : Bool) (stack : List Bytes) (piece : Bytes) : List Bytes :=
  if piece = [] ∨ piece = dot then stack
  else if piece = dotdot then
    match stack with
    | [] => if rooted then [] else [dotdot]
    | top :: rest => if top = dotdot then dotdot :: stack else rest
  else piece :: stack

def rooted (path : Bytes) : Bool := path.head? = some separator

def elements (path : Bytes) : List Bytes := ((pieces path).foldl (element (rooted path)) []).reverse

def joined : List Bytes → Bytes
  | [] => []
  | [e] => e
  | e :: rest => e ++ separator :: joined rest

def clean (path : Bytes) : Bytes :=
  if rooted path then separator :: joined (elements path)
  else if elements path = [] then dot else joined (elements path)

/-- Join of two elements; an empty one is left out. -/
def join (front back : Bytes) : Bytes :=
  if front ≠ [] then clean (front ++ separator :: back)
  else if back ≠ [] then clean back else []

theorem piecesNonempty (path : Bytes) : pieces path ≠ [] := by
  cases path with
  | nil => exact List.cons_ne_nil _ _
  | cons b rest =>
    unfold pieces
    split
    · exact List.cons_ne_nil _ _
    · split <;> exact List.cons_ne_nil _ _

theorem piecesTrailing (path : Bytes) : pieces (path ++ [separator]) = pieces path ++ [[]] := by
  induction path with
  | nil => rfl
  | cons b rest ih =>
    rw [List.cons_append, pieces, pieces, ih]
    split
    · rfl
    · obtain ⟨piece, more, same⟩ := List.exists_cons_of_ne_nil (piecesNonempty rest)
      rw [same]
      rfl

/-- A separator at the end changes nothing. -/
theorem cleanTrailing {path : Bytes} (some_ : path ≠ []) : clean (path ++ [separator]) = clean path := by
  obtain ⟨b, rest, rfl⟩ := List.exists_cons_of_ne_nil some_
  have same : elements (b :: rest ++ [separator]) = elements (b :: rest) := by
    rw [elements, elements, piecesTrailing, List.foldl_append]
    rfl
  have root : rooted (b :: rest ++ [separator]) = rooted (b :: rest) := rfl
  rw [clean, clean, same, root]

theorem joinTrailing (front : Bytes) {back : Bytes} (some_ : back ≠ []) :
    join front (back ++ [separator]) = join front back := by
  unfold join
  split
  · rw [← List.cons_append, ← List.append_assoc]
    exact cleanTrailing (by simp)
  · rw [if_pos (by simp)]
    exact cleanTrailing some_

/-- `/a/../b//./c/`, `a/../..` and `/..` -/
example : clean [47, 97, 47, 46, 46, 47, 98, 47, 47, 46, 47, 99, 47] = [47, 98, 47, 99] ∧
    clean [97, 47, 46, 46, 47, 46, 46] = [46, 46] ∧ clean [47, 46, 46] = [47] := by decide

end OmegaLb.FilePath
