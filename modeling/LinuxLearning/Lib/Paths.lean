/-
Paths and where they lead.  A path is a list of moves from a directory; its
normal form climbs some levels and then goes down through names.  Nothing is
looked up: the resolution is lexical.
-/
import Mathlib.Data.List.Induction

namespace LinuxLearning.Paths

/-- What one component of a path does. -/
inductive Move (α : Type) where
  | stay
  | up
  | down (name : α)
  deriving DecidableEq

section Moves

variable {α : Type}

/-- One move from a directory; the root has no parent. -/
def move (dir : List α) : Move α → List α
  | .stay => dir
  | .up => dir.dropLast
  | .down name => dir ++ [name]

/-- Where a path leads from a directory. -/
def walk (dir : List α) (path : List (Move α)) : List α := path.foldl move dir

theorem walk_append (dir : List α) (path more : List (Move α)) :
    walk dir (path ++ more) = walk (walk dir path) more :=
  List.foldl_append

/-- A path in normal form: levels to climb, then names to go down through. -/
structure Normal (α : Type) where
  ups : Nat
  names : List α
  deriving DecidableEq

/-- A normal form, one move further. -/
def Normal.move (way : Normal α) : Move α → Normal α
  | .stay => way
  | .up =>
      match way.names with
      | [] => ⟨way.ups + 1, []⟩
      | _ :: _ => ⟨way.ups, way.names.dropLast⟩
  | .down name => ⟨way.ups, way.names ++ [name]⟩

/-- The normal form of a path. -/
def normal (path : List (Move α)) : Normal α := path.foldl Normal.move ⟨0, []⟩

/-- What is left of a directory after climbing, and what is climbed out of. -/
def kept (ups : Nat) (dir : List α) : List α := dir.take (dir.length - ups)

def climbed (ups : Nat) (dir : List α) : List α := dir.drop (dir.length - ups)

theorem kept_append_climbed (ups : Nat) (dir : List α) :
    kept ups dir ++ climbed ups dir = dir :=
  List.take_append_drop _ _

theorem dropLast_kept (ups : Nat) (dir : List α) :
    (kept ups dir).dropLast = kept (ups + 1) dir := by
  rw [List.dropLast_eq_take, kept, kept, List.take_take, List.length_take]
  congr 1
  omega

/-- Where a normal form leads. -/
def Normal.goto (way : Normal α) (dir : List α) : List α := kept way.ups dir ++ way.names

theorem Normal.goto_move (dir : List α) (way : Normal α) (step : Move α) :
    (way.move step).goto dir = Paths.move (way.goto dir) step := by
  cases step with
  | stay => rfl
  | up =>
      obtain ⟨ups, names⟩ := way
      cases names with
      | nil => simp [Normal.move, goto, Paths.move, dropLast_kept]
      | cons name names =>
          simp [Normal.move, goto, Paths.move, List.dropLast_append_of_ne_nil]
  | down name => simp [Normal.move, goto, Paths.move]

theorem Normal.goto_foldl (dir : List α) (way : Normal α) (path : List (Move α)) :
    (path.foldl Normal.move way).goto dir = walk (way.goto dir) path := by
  induction path generalizing way with
  | nil => rfl
  | cons step path ih =>
      have hstep := ih (way.move step)
      rw [way.goto_move] at hstep
      exact hstep

/-- A path leads where its normal form leads. -/
theorem walk_eq_goto (dir : List α) (path : List (Move α)) :
    walk dir path = (normal path).goto dir := by
  have hstart : Normal.goto ⟨0, []⟩ dir = dir := by simp [Normal.goto, kept]
  rw [normal, Normal.goto_foldl, hstart]

/-- A place below a directory, and not the directory itself. -/
def Below (dir place : List α) : Prop := dir <+: place ∧ dir ≠ place

instance [DecidableEq α] (dir place : List α) : Decidable (Below dir place) :=
  inferInstanceAs (Decidable (_ ∧ _))

theorem below_append_iff (common dir place : List α) :
    Below (common ++ dir) (common ++ place) ↔ Below dir place := by
  simp [Below]

/-- A path leads below the directory it starts from exactly when its names
come back through what it has climbed out of, and go on. -/
theorem below_walk_iff (dir : List α) (path : List (Move α)) :
    Below dir (walk dir path) ↔ Below (climbed (normal path).ups dir) (normal path).names := by
  have hdir := kept_append_climbed (normal path).ups dir
  have happend := below_append_iff (kept (normal path).ups dir)
    (climbed (normal path).ups dir) (normal path).names
  rw [hdir] at happend
  rw [walk_eq_goto]
  exact happend

end Moves

section Text

variable {α : Type} [DecidableEq α] (sep dot : α)

/-- What a component is read as: nothing and '.' stay, '..' goes up. -/
def component (name : List α) : Move (List α) :=
  if name = [] ∨ name = [dot] then .stay
  else if name = [dot, dot] then .up
  else .down name

/-- The moves a path's text is read as. -/
def moves (text : List α) : List (Move (List α)) := (text.splitOn sep).map (component dot)

/-- Where an absolute path leads. -/
def resolve (text : List α) : List (List α) := walk [] (moves sep dot text)

theorem moves_append_sep (text more : List α) :
    moves sep dot (text ++ sep :: more) = moves sep dot text ++ moves sep dot more := by
  rw [moves, List.splitOn_append_cons_self, List.map_append]
  rfl

/-- A text that is joined on at a separator is walked from where the first
leads. -/
theorem resolve_append {text more : List α} (hmore : more = [] ∨ more.head? = some sep) :
    resolve sep dot (text ++ more) = walk (resolve sep dot text) (moves sep dot more) := by
  cases more with
  | nil =>
      have hstay : moves sep dot [] = [.stay] := by simp [moves, component]
      rw [List.append_nil, hstay]
      rfl
  | cons first more =>
      have hfirst : first = sep := by simpa using hmore
      have hstay : moves sep dot (first :: more) = .stay :: moves sep dot more := by
        have := moves_append_sep sep dot [] more
        rw [hfirst]
        simpa [moves, component] using this
      rw [hstay, hfirst, resolve, moves_append_sep, walk_append]
      rfl

/-- Where a path below a base leads, in terms of the path alone. -/
theorem below_resolve_iff {base text : List α} (htext : text = [] ∨ text.head? = some sep) :
    Below (resolve sep dot base) (resolve sep dot (base ++ text)) ↔
      Below (climbed (normal (moves sep dot text)).ups (resolve sep dot base))
        (normal (moves sep dot text)).names := by
  rw [resolve_append sep dot htext]
  exact below_walk_iff _ _

end Text

end LinuxLearning.Paths
