/-!
# File systems

The part of a file system that a run can see: the working directory with the files and
directories in it. Paths are relative to it.

## Main definitions

* `Node`, `FileSystem`
* `FileSystem.resolve` — the node that a path leads to
* `FileSystem.read`, `write` — access to whole texts
* `FileSystem.changed` — the files that are new or different

## Main results

* `FileSystem.get?_write` — a write changes one place, which then holds the text
-/

namespace RegArith

/-- What a place in a file system holds. -/
inductive Node where
  | file (content : ByteArray)
  | directory

/-- The place of a node: its name, then the names of the directories around it. -/
abbrev Location : Type := List String

/-- The nodes below the working directory. -/
structure FileSystem where
  /-- Nodes with their places. -/
  nodes : List (Location × Node)

namespace FileSystem

/-- The node at a place. The working directory itself is always there. -/
def get? (fs : FileSystem) : Location → Option Node
  | [] => some .directory
  | place => (fs.nodes.find? (·.1 == place)).map Prod.snd

/-- Whether a place is a directory. -/
def isDirectory (fs : FileSystem) (place : Location) : Bool :=
  match fs.get? place with
  | some .directory => true
  | _ => false

/-- The most bytes that a name can have. -/
def maxNameSize : Nat := 255

/-- The most bytes that a path can have. -/
def maxPathSize : Nat := 4095

/-- Follows names from a place. Only a directory has names in it; the empty name and `.` stay
there, and `..` goes up, though not beyond the working directory. -/
def walk (fs : FileSystem) : Location → List String → Option Location
  | place, [] => some place
  | place, name :: rest =>
    if !fs.isDirectory place then none
    else if name = "" ∨ name = "." then fs.walk place rest
    else if name = ".." then
      match place with
      | [] => none
      | _ :: up => fs.walk up rest
    else if maxNameSize < name.utf8ByteSize then none
    else fs.walk (name :: place) rest

/-- The place that a path leads to. Everything before its last name exists. -/
def resolve (fs : FileSystem) (path : String) : Option Location :=
  if path = "" ∨ path.front = '/' ∨ maxPathSize < path.utf8ByteSize then none
  else fs.walk [] (path.splitOn "/")

/-- The text of a file, if there is one and it is text. -/
def read (fs : FileSystem) (path : String) : Option String :=
  match (fs.resolve path).bind fs.get? with
  | some (.file content) => String.fromUTF8? content
  | _ => none

/-- The nodes with a file put at a place. -/
def put (nodes : List (Location × Node)) (place : Location) (content : ByteArray) :
    List (Location × Node) :=
  match nodes with
  | [] => [(place, .file content)]
  | (p, node) :: rest =>
    if p = place then (p, .file content) :: rest else (p, node) :: put rest place content

/-- The file system after writing a whole text; `none` if the path cannot be written. -/
def write (fs : FileSystem) (path text : String) : Option FileSystem :=
  match fs.resolve path with
  | none => none
  | some place =>
    if fs.isDirectory place then none else some ⟨put fs.nodes place text.toUTF8⟩

/-! ### What a write changes -/

theorem find?_put_self (nodes : List (Location × Node)) (place : Location) (content : ByteArray) :
    (put nodes place content).find? (·.1 == place) = some (place, .file content) := by
  induction nodes with
  | nil => simp [put]
  | cons head rest ih =>
    obtain ⟨p, node⟩ := head
    by_cases hp : p = place
    · simp [put, hp]
    · rw [put, if_neg hp, List.find?_cons_of_neg (by simpa using hp), ih]

theorem find?_put_of_ne {place q : Location} (hq : q ≠ place) (nodes : List (Location × Node))
    (content : ByteArray) :
    (put nodes place content).find? (·.1 == q) = nodes.find? (·.1 == q) := by
  induction nodes with
  | nil => simp [put, Ne.symm hq]
  | cons head rest ih =>
    obtain ⟨p, node⟩ := head
    by_cases hp : p = place
    · subst hp
      simp [put, Ne.symm hq]
    · rw [put, if_neg hp]
      by_cases hpq : p = q
      · simp [hpq]
      · simp only [List.find?_cons, beq_eq_false_iff_ne.2 hpq, ih]

/-- A write changes one place, which then holds the text. -/
theorem get?_write {fs after : FileSystem} {path text : String}
    (h : fs.write path text = some after) :
    ∃ place, fs.resolve path = some place ∧ after.get? place = some (.file text.toUTF8) ∧
      ∀ q, q ≠ place → after.get? q = fs.get? q := by
  unfold write at h
  split at h
  · exact absurd h (by simp)
  · rename_i place hplace
    split at h
    · exact absurd h (by simp)
    · rename_i hdir
      obtain rfl : ⟨put fs.nodes place text.toUTF8⟩ = after := Option.some.inj h
      refine ⟨place, hplace, ?_, fun q hq => ?_⟩
      · cases place with
        | nil => exact absurd rfl hdir
        | cons name up => simp only [get?, find?_put_self, Option.map_some]
      · cases q with
        | nil => rfl
        | cons name up => simp only [get?, find?_put_of_ne hq]

/-! ### Comparing -/

/-- The files of the working directory itself that `before` does not have with that content. -/
def changed (before after : FileSystem) : List (String × ByteArray) :=
  after.nodes.filterMap fun
    | ([name], .file content) =>
      match before.get? [name] with
      | some (.file old) => if old.data == content.data then none else some (name, content)
      | _ => some (name, content)
    | _ => none

end FileSystem

end RegArith
