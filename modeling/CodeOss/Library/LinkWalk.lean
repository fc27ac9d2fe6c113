import Mathlib

/-! Reading paths in a tree of names with symbolic links. A path is read name by name: a link is
replaced by what its target leads to, and a `..` goes up from where the reading stands. The lexical
reading drops a name together with the `..` behind it. The two agree as long as no `..` steps back
over a link. -/

universe u

namespace LinkWalk

open List Option Function

inductive Component (N : Type u)
  | curDir
  | parentDir
  | normal (name : N)
  deriving DecidableEq

/-- A path by its components; the root can only come first and is a flag. -/
structure PathBuf (N : Type u) where
  hasRoot : Bool
  parts : List (Component N)
  deriving DecidableEq

/-- The targets of the links of a tree, by where they stand. -/
abbrev Links (N : Type u) := List N → Option (PathBuf N)

variable {N : Type u}

def PathBuf.start (path : PathBuf N) (place : List N) : List N := if path.hasRoot then [] else place

def names (place : List N) : List (Component N) := place.map .normal

namespace PathBuf

def ofPlace (place : List N) : PathBuf N := ⟨true, names place⟩

variable (path : PathBuf N)

def isEmpty : Bool := !path.hasRoot && path.parts.isEmpty

/-- The components, `none` for the root. -/
def components : List (Option (Component N)) :=
  (if path.hasRoot then [none] else []) ++ path.parts.map some

def push : Option (Component N) → PathBuf N
  | none => ⟨true, []⟩
  | some part => { path with parts := path.parts ++ [part] }

def collect (components : List (Option (Component N))) : PathBuf N :=
  components.foldl push ⟨false, []⟩

def join (path rest : PathBuf N) : PathBuf N :=
  if rest.hasRoot then rest else { path with parts := path.parts ++ rest.parts }

def parent : Option (PathBuf N) :=
  if path.parts.isEmpty then none else some { path with parts := path.parts.dropLast }

def startsWith [DecidableEq N] (path base : PathBuf N) : Bool :=
  base.components.isPrefixOf path.components

end PathBuf

def stepsWith (L : Links N) (follow : List N → PathBuf N → Option (List N)) :
    List N → List (Component N) → Option (List N)
  | place, [] => some place
  | place, .curDir :: rest => stepsWith L follow place rest
  | place, .parentDir :: rest => stepsWith L follow place.dropLast rest
  | place, .normal name :: rest =>
    match L (place ++ [name]) with
    | none => stepsWith L follow (place ++ [name]) rest
    | some target => (follow place target).bind fun next => stepsWith L follow next rest

/-- Where a path leads from a place. What does not exist is read like a directory; `k` bounds how
deep links may stand in links. -/
def walk (L : Links N) : ℕ → List N → List (Component N) → Option (List N)
  | 0 => stepsWith L fun _ _ => none
  | k + 1 => stepsWith L fun place target => walk L k (target.start place) target.parts

def lexical : List N → List (Component N) → Option (List N)
  | place, [] => some place
  | place, .curDir :: rest => lexical place rest
  | place, .parentDir :: rest => if place = [] then none else lexical place.dropLast rest
  | place, .normal name :: rest => lexical (place ++ [name]) rest

/-- No `..` of the path steps back over a link. -/
def StepsBackPlain (L : Links N) (k : ℕ) : List N → List (Component N) → Prop
  | _, [] => True
  | place, .curDir :: rest => StepsBackPlain L k place rest
  | place, .parentDir :: rest =>
    (∀ before name next, place = before ++ [name] → walk L k [] (names before) = some next →
      L (next ++ [name]) = none) ∧ StepsBackPlain L k place.dropLast rest
  | place, .normal name :: rest => StepsBackPlain L k (place ++ [name]) rest

variable {L : Links N} {k : ℕ}

theorem walk_nil (place : List N) : walk L k place [] = some place := by
  cases k <;> rfl

theorem walk_curDir (place : List N) (rest : List (Component N)) :
    walk L k place (.curDir :: rest) = walk L k place rest := by
  cases k <;> rfl

theorem walk_parentDir (place : List N) (rest : List (Component N)) :
    walk L k place (.parentDir :: rest) = walk L k place.dropLast rest := by
  cases k <;> rfl

variable {place : List N} {name : N}

theorem walk_plain (h : L (place ++ [name]) = none) (rest : List (Component N)) :
    walk L k place (.normal name :: rest) = walk L k (place ++ [name]) rest := by
  cases k <;> simp only [walk, stepsWith, h]

theorem walk_link {target : PathBuf N} (h : L (place ++ [name]) = some target)
    (rest : List (Component N)) : walk L (k + 1) place (.normal name :: rest) =
    (walk L k (target.start place) target.parts).bind fun next => walk L (k + 1) next rest := by
  simp only [walk, stepsWith, h]

theorem walk_zero_link {target : PathBuf N} (h : L (place ++ [name]) = some target)
    (rest : List (Component N)) : walk L 0 place (.normal name :: rest) = none := by
  simp only [walk, stepsWith, h, bind_none]

theorem walk_append (place : List N) (parts rest : List (Component N)) : walk L k place
    (parts ++ rest) = (walk L k place parts).bind fun next => walk L k next rest := by
  induction parts generalizing place with
  | nil => rw [nil_append, walk_nil, bind_some]
  | cons part parts ih =>
    rw [cons_append]
    cases part with
    | curDir => rw [walk_curDir, walk_curDir, ih]
    | parentDir => rw [walk_parentDir, walk_parentDir, ih]
    | normal name =>
      cases h : L (place ++ [name]) with
      | none => rw [walk_plain h, walk_plain h, ih]
      | some target =>
        cases k with
        | zero => rw [walk_zero_link h, walk_zero_link h, bind_none]
        | succ k =>
          rw [walk_link h, walk_link h, bind_assoc]
          exact congrArg _ (funext fun next => ih next)

theorem names_append (place rest : List N) : names (place ++ rest) = names place ++ names rest :=
  map_append

theorem lexical_names (place : List N) (parts : List (Component N)) (before : List N) :
    lexical before (names place ++ parts) = lexical (before ++ place) parts := by
  induction place generalizing before with
  | nil => rw [names, map_nil, nil_append, append_nil]
  | cons name place ih =>
    rw [names, map_cons, cons_append, lexical, ← names, ih, append_assoc]
    rfl

theorem walk_names (before rest : List N) (h : ∀ v, v <+: rest → v ≠ [] → L (before ++ v) = none) :
    walk L k before (names rest) = some (before ++ rest) := by
  induction rest generalizing before with
  | nil => rw [names, map_nil, walk_nil, append_nil]
  | cons name rest ih =>
    have hname : L (before ++ [name]) = none := h [name] ⟨rest, rfl⟩ (cons_ne_nil _ _)
    have hrest : ∀ v, v <+: rest → v ≠ [] → L ((before ++ [name]) ++ v) = none := by
      rintro v ⟨w, rfl⟩ -
      rw [append_assoc]
      exact h ([name] ++ v) ⟨w, rfl⟩ (cons_ne_nil _ _)
    rw [names, map_cons, walk_plain hname, ← names, ih _ hrest, append_assoc]
    rfl

variable {parts : List (Component N)}

theorem walk_lexical {next : List N} {last goal : List N}
    (hplain : StepsBackPlain L k place parts) (hlast : lexical place parts = some last)
    (hplace : walk L k [] (names place) = some next) (hgoal : walk L k next parts = some goal) :
    walk L k [] (names last) = some goal := by
  induction parts generalizing place next with
  | nil =>
    obtain rfl := Option.some.inj hlast
    rw [walk_nil] at hgoal
    obtain rfl := Option.some.inj hgoal
    exact hplace
  | cons part parts ih =>
    cases part with
    | curDir => exact ih hplain hlast hplace (by rwa [walk_curDir] at hgoal)
    | parentDir =>
      obtain ⟨hback, hplain⟩ := hplain
      rw [lexical] at hlast
      split_ifs at hlast with hnil
      obtain ⟨before, name, rfl⟩ : ∃ before name, place = before ++ [name] :=
        ⟨_, _, (dropLast_append_getLast hnil).symm⟩
      rw [names_append, walk_append, bind_eq_some_iff] at hplace
      obtain ⟨at_, hbefore, hname⟩ := hplace
      rw [show names [name] = [.normal name] from rfl,
        walk_plain (hback before name at_ rfl hbefore), walk_nil] at hname
      obtain rfl := Option.some.inj hname
      rw [walk_parentDir, dropLast_concat] at hgoal
      rw [dropLast_concat] at hlast hplain
      exact ih hplain hlast hbefore hgoal
    | normal name =>
      rw [← singleton_append, walk_append, bind_eq_some_iff] at hgoal
      obtain ⟨at_, hname, hgoal⟩ := hgoal
      refine ih hplain hlast ?_ hgoal
      rw [names_append, walk_append, hplace, bind_some]
      exact hname

theorem lexical_transfer {next rest last : List N}
    (hplain : StepsBackPlain L k (place ++ rest) parts)
    (hlast : lexical (place ++ rest) parts = some last)
    (hplace : walk L k [] (names place) = some next) :
    ∃ place' next' rest', place' <+: place ∧ walk L k [] (names place') = some next' ∧
    last = place' ++ rest' ∧ lexical (next ++ rest) parts = some (next' ++ rest') := by
  induction parts generalizing place next rest with
  | nil => exact ⟨place, next, rest, prefix_rfl, hplace, (Option.some.inj hlast).symm, rfl⟩
  | cons part parts ih =>
    cases part with
    | curDir => exact ih hplain hlast hplace
    | normal name =>
      rw [StepsBackPlain, append_assoc] at hplain
      rw [lexical, append_assoc] at hlast
      obtain ⟨place', next', rest', hle, hwalk, hend, hnext⟩ := ih hplain hlast hplace
      exact ⟨place', next', rest', hle, hwalk, hend, by rwa [lexical, append_assoc]⟩
    | parentDir =>
      obtain ⟨hback, hplain⟩ := hplain
      rw [lexical] at hlast
      split_ifs at hlast with hnil
      rcases eq_nil_or_concat' rest with rfl | ⟨rest, name, rfl⟩
      · rw [append_nil] at hback hplain hlast hnil
        obtain ⟨before, name, rfl⟩ : ∃ before name, place = before ++ [name] :=
          ⟨_, _, (dropLast_append_getLast hnil).symm⟩
        rw [dropLast_concat, ← append_nil before] at hplain hlast
        rw [names_append, walk_append, bind_eq_some_iff] at hplace
        obtain ⟨at_, hbefore, hname⟩ := hplace
        rw [show names [name] = [.normal name] from rfl,
          walk_plain (hback before name at_ rfl hbefore), walk_nil] at hname
        obtain rfl := Option.some.inj hname
        obtain ⟨place', next', rest', hle, hwalk, hend, hnext⟩ := ih hplain hlast hbefore
        refine ⟨place', next', rest', hle.trans (prefix_append _ _), hwalk, hend, ?_⟩
        rw [lexical, append_nil, if_neg (by simp), dropLast_concat]
        rwa [append_nil] at hnext
      · rw [← append_assoc, dropLast_concat] at hplain hlast
        obtain ⟨place', next', rest', hle, hwalk, hend, hnext⟩ := ih hplain hlast hplace
        refine ⟨place', next', rest', hle, hwalk, hend, ?_⟩
        rw [lexical, if_neg (by simp), ← append_assoc, dropLast_concat]
        exact hnext

/-- Below `root` every link stands in a directory, and its target lexically stays below `root`
without stepping back over a link. -/
structure Below (root : List N) (L : Links N) : Prop where
  root_plain : ∀ v, v <+: root → L v = none
  above_plain : ∀ place target, root <+: place → L place = some target →
    ∀ v, v <+: place → v ≠ place → L v = none
  not_hasRoot : ∀ place target, root <+: place → L place = some target → target.hasRoot = false
  lexical_below : ∀ place target, root <+: place → L place = some target →
    ∃ last, lexical place.dropLast target.parts = some last ∧ root <+: last
  stepsBack : ∀ place target, root <+: place → L place = some target →
    ∀ k, StepsBackPlain L k place.dropLast target.parts

namespace Below

variable {root : List N}

theorem walk_root (h : Below root L) : walk L k [] (names root) = some root :=
  walk_names [] root fun v hv _ => h.root_plain v hv

variable {place : List N} {target : PathBuf N} {goal : List N}

variable (h : Below root L)
include h

theorem exists_name (htarget : L place = some target) :
    ∃ before name, place = before ++ [name] := by
  rcases eq_nil_or_concat' place with rfl | ⟨before, name, rfl⟩
  · rw [h.root_plain [] nil_prefix] at htarget
    exact absurd htarget (by simp)
  · exact ⟨before, name, rfl⟩

section

variable (hplace : root <+: place)
include hplace

theorem target_names (htarget : L place = some target)
    (hgoal : walk L k (target.start place.dropLast) target.parts = some goal) :
    ∃ rest, walk L k root (names rest) = some goal := by
  obtain ⟨before, name, rfl⟩ := h.exists_name htarget
  obtain ⟨last, hlast, rest, rfl⟩ := h.lexical_below _ target hplace htarget
  have hback := h.stepsBack _ target hplace htarget k
  rw [PathBuf.start, h.not_hasRoot _ target hplace htarget, if_neg Bool.false_ne_true] at hgoal
  rw [dropLast_concat] at hlast hback hgoal
  have hbefore : walk L k [] (names before) = some before := by
    refine walk_names [] before fun v hv _ => ?_
    refine h.above_plain _ target hplace htarget v (hv.trans (prefix_append _ _)) ?_
    rintro rfl
    exact absurd hv.length_le (by simp)
  have hwalk := walk_lexical hback hlast hbefore hgoal
  rw [names_append, walk_append, h.walk_root, bind_some] at hwalk
  exact ⟨rest, hwalk⟩

theorem walk_below (rest : List N)
    (hgoal : walk L k place (names rest) = some goal) : root <+: goal := by
  induction k generalizing place rest goal with
  | zero =>
    induction rest generalizing place with
    | nil =>
      rw [names, map_nil, walk_nil] at hgoal
      exact Option.some.inj hgoal ▸ hplace
    | cons name rest ih =>
      rw [names, map_cons] at hgoal
      cases hlink : L (place ++ [name]) with
      | none =>
        rw [walk_plain hlink] at hgoal
        exact ih (hplace.trans (prefix_append _ _)) hgoal
      | some target =>
        rw [walk_zero_link hlink] at hgoal
        exact absurd hgoal (by simp)
  | succ k ihk =>
    induction rest generalizing place with
    | nil =>
      rw [names, map_nil, walk_nil] at hgoal
      exact Option.some.inj hgoal ▸ hplace
    | cons name rest ih =>
      rw [names, map_cons] at hgoal
      have hname := hplace.trans (prefix_append place [name])
      cases hlink : L (place ++ [name]) with
      | none =>
        rw [walk_plain hlink] at hgoal
        exact ih hname hgoal
      | some target =>
        rw [walk_link hlink, bind_eq_some_iff] at hgoal
        obtain ⟨next, hnext, hgoal⟩ := hgoal
        obtain ⟨names, hnames⟩ := h.target_names hname hlink
          (by rwa [dropLast_concat])
        exact ih (ihk prefix_rfl names hnames) hgoal

theorem walk_place (hgoal : walk L k [] (names place) = some goal) : root <+: goal := by
  obtain ⟨rest, rfl⟩ := hplace
  rw [names_append, walk_append, h.walk_root, bind_some] at hgoal
  exact h.walk_below prefix_rfl rest hgoal

theorem target_below (htarget : L place = some target)
    (hgoal : walk L k (target.start place.dropLast) target.parts = some goal) : root <+: goal := by
  obtain ⟨rest, hrest⟩ := h.target_names hplace htarget hgoal
  exact h.walk_below prefix_rfl rest hrest

end

theorem update [DecidableEq N] {directory : List N} {name : N} {x : Option (PathBuf N)}
    (hdirectory : root <+: directory) (hplain : ∀ v, v <+: directory → L v = none)
    (hleaf : ∀ place, directory ++ [name] <+: place → place ≠ directory ++ [name] → L place = none)
    (hx : ∀ target, x = some target → target.hasRoot =
    false ∧ ∃ last, lexical directory target.parts = some last ∧ root <+: last) (hback :
    ∀ place target, root <+: place → Function.update L (directory ++ [name]) x place = some target →
    ∀ k, StepsBackPlain (Function.update L (directory ++ [name]) x) k place.dropLast target.parts) :
    Below root (Function.update L (directory ++ [name]) x) := by
  have hshort : ∀ v, v <+: directory → v ≠ directory ++ [name] := by
    rintro v hv rfl
    exact absurd hv.length_le (by simp)
  constructor
  · intro v hv
    rw [update_of_ne (hshort v (hv.trans hdirectory)), h.root_plain v hv]
  · intro place target hroot htarget v hv hne
    by_cases hplace : place = directory ++ [name]
    · subst hplace
      have hv' : v <+: directory := by
        rcases prefix_concat_iff.1 hv with rfl | hv
        · exact absurd rfl hne
        · exact hv
      rw [update_of_ne (hshort v hv'), hplain v hv']
    · rw [update_of_ne hplace] at htarget
      rw [update_of_ne, h.above_plain place target hroot htarget v hv hne]
      rintro rfl
      rw [hleaf place hv hplace] at htarget
      exact absurd htarget (by simp)
  · intro place target hroot htarget
    by_cases hplace : place = directory ++ [name]
    · rw [hplace, update_self] at htarget
      exact (hx target htarget).1
    · rw [update_of_ne hplace] at htarget
      exact h.not_hasRoot place target hroot htarget
  · intro place target hroot htarget
    by_cases hplace : place = directory ++ [name]
    · rw [hplace, update_self] at htarget
      rw [hplace, dropLast_concat]
      exact (hx target htarget).2
    · rw [update_of_ne hplace] at htarget
      exact h.lexical_below place target hroot htarget
  · exact hback

end Below

end LinkWalk
