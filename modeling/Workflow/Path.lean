/-!
Paths that start in a directory with no directories in it. Such a path leads to a file of the
directory itself or of one above it. Main statement: a file's name is a path to that file.
-/

namespace Workflow.Path

/-- What stands between the slashes. -/
def parts : List Char → List (List Char)
  | [] => [[]]
  | '/' :: r => [] :: parts r
  | c :: r =>
    match parts r with
    | p :: ps => (c :: p) :: ps
    | [] => [[c]]

/-- The bytes that a name may have in UTF-8. -/
def nameLimit : Nat := 255

/-- The bytes that a path may have in UTF-8. -/
def pathLimit : Nat := 4095

/-- A file can have this name. -/
def isName (s : List Char) : Bool :=
  s ≠ [] && s ≠ ['.'] && s ≠ ['.', '.'] && s.all (fun c => c ≠ '/' && c ≠ '\x00') &&
    (String.ofList s).utf8ByteSize ≤ nameLimit

/-- The last part names the file. Of the parts before it, an empty one and `.` stay where they are,
and `..` goes to the directory above; any other would be a directory to enter, and there is none. -/
def follow : List (List Char) → Option (List Char)
  | [] => none
  | [p] => if isName p then some p else none
  | [] :: r | ['.'] :: r => follow r
  | ['.', '.'] :: r => (follow r).map (['.', '.', '/'] ++ ·)
  | _ :: _ => none

/-- The file that a path leads to, by its shortest path. A path that starts with a slash starts
elsewhere. -/
def resolve? (path : String) : Option String :=
  if path.toList.head? = some '/' ∨ path.utf8ByteSize > pathLimit then none
  else (follow (parts path.toList)).map String.ofList

theorem parts_of_no_slash (s : List Char) (h : ∀ c ∈ s, c ≠ '/') : parts s = [s] := by
  induction s with
  | nil => rfl
  | cons c r ih =>
    have hc : c ≠ '/' := h c (by simp)
    have hr := ih fun d hd => h d (by simp [hd])
    simp [parts, hr]

theorem resolve?_of_isName {path : String} (h : isName path.toList) :
    resolve? path = some path := by
  obtain ⟨hc, hs⟩ : (∀ c ∈ path.toList, c ≠ '/') ∧ path.utf8ByteSize ≤ nameLimit := by
    simp only [isName, Bool.and_eq_true, List.all_eq_true, decide_eq_true_eq,
      String.ofList_toList] at h
    exact ⟨fun c hc => (h.1.2 c hc).1, h.2⟩
  have hh : path.toList.head? ≠ some '/' := fun e => hc _ (List.mem_of_head? e) rfl
  have hl : ¬ path.utf8ByteSize > pathLimit := by unfold nameLimit at hs; unfold pathLimit; omega
  simp [resolve?, hh, hl, parts_of_no_slash _ hc, follow, h]

end Workflow.Path
