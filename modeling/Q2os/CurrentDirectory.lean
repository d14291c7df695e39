import Q2os.OpenFailure
import Q2os.StringCopy

/- cd of the shell, which edits the current directory as text, and what the kernel takes the text
   for. -/
namespace CurrentDirectory
open ByteMemory BlockProgram UserMemory Fat32 NameMatching OpenFiles PathWalk OpenFailure KeptBlocks
open StringCopy (chars chars_succ)

theorem slashChar_solid : (0x2f : UInt8) ≠ 0 := by decide
theorem dotChar_solid : (0x2e : UInt8) ≠ 0 := by decide

def slashChar : { c : UInt8 // c ≠ 0 } := ⟨0x2f, slashChar_solid⟩
def dotChar : { c : UInt8 // c ≠ 0 } := ⟨0x2e, dotChar_solid⟩

def root : CString := [slashChar]
def dot : CString := [dotChar]
def dotDot : CString := [dotChar, dotChar]

def sysChdir (choose : Finset Nat → Option Nat) (v : Volume) (user : Memory) (filename : Nat) :
    Owning Int := do
  match ← kmallocOrNull choose with
  | none => return -ENOMEM
  | some path =>
    let pathlen := strnlenUser user filename page4KSize
    if pathlen = 0 then do
      kfree path
      return -EFAULT
    else if page4KSize ≤ pathlen then do
      kfree path
      return -ENAMETOOLONG
    else do
      let dentry ← plain (PathWalk.pathWalk v (stringAt user filename pathlen) 0)
      kfree path
      match dentry with
      | none => return -ENOENT
      | some dentry => return if dentry.attributes ≠ attrDir then -ENOTDIR else 0

/- A path in the memory of the shell, and the heap of the kernel. -/
structure Passed (path : CString) where
  user : Memory
  filename : Nat
  stored : ∀ i (inside : i < path.length), user (filename + i) = path[i].1
  ended : user (filename + path.length) = 0
  choose : Finset Nat → Option Nat
  live : Finset Nat

def chdir (v : Volume) (passed : ∀ path, Passed path) (path : CString) : Prog Int := do
  let answer ← sysChdir (passed path).choose v (passed path).user (passed path).filename (passed path).live
  return answer.1

/- for(i = len-1;i > 1;i--), from an i on. -/
def lastSlash (dir : CString) : Nat → Nat
  | 0 => 0
  | 1 => 1
  | i + 2 => if chars dir (i + 2) = 0x2f then i + 2 else lastSlash dir (i + 1)

def cutLast (dir : CString) : CString := dir.take (lastSlash dir (dir.length - 1))

def cdCommand (chdir : CString → Prog Int) (dir arg : CString) : Prog CString :=
  if arg = dot then return dir
  else if arg = dotDot then
    if dir = root then return dir
    else if dir = [] then .fault
    else return cutLast dir
  else if 2 ^ 31 ≤ dir.length + arg.length + 2 then .fault
  else do
    let path := dir ++ (if 1 < dir.length then [slashChar] else []) ++ arg
    let i ← chdir path
    return if i = 0 then path else dir

/-- The current directories that cd leads to, each time on a disk and in memories of any contents. -/
inductive Reached (v : Volume) : CString → Prop where
  | start : Reached v root
  | cd {dir dir' : CString} (arg : CString) {passed : ∀ path, Passed path} {w w' : World}
      (before : Reached v dir) (ran : run (cdCommand (chdir v passed) dir arg) w = some (dir', w')) :
      Reached v dir'

def Names (v : Volume) (w : World) (path : CString) (d : Found) (w' : World) : Prop :=
  run (PathWalk.pathWalk v path 0) w = some (some d, w')

def Undotted (n : Name) : Prop := n.text ≠ dot ∧ n.text ≠ dotDot

/-- The second path names the parent of what the first one names: the root's is itself, and any other
    entry is found in its parent under a name of its own. -/
def ToParent (v : Volume) (w : World) (path path' : CString) : Prop :=
  ∀ d w', Names v w path d w' →
    if components path = [] then Names v w path' d w'
    else ∃ p w₁ n, Names v w path' p w₁ ∧ Undotted n ∧ run (lookup v p n) w₁ = some (some d, w')

/-- The text ends in such a name. -/
def EndsInName (dir : CString) : Prop :=
  ∃ front n, dir = front ++ slashChar :: Name.text n ∧ (∀ c ∈ Name.text n, slash c = false) ∧ Undotted n

section texts
variable {a b path dir : CString} {c : { c : UInt8 // c ≠ 0 }}

theorem slash_slashChar : slash slashChar = true := rfl

theorem chars_append (a b : CString) (i : Nat) : chars (a ++ b) (a.length + i) = chars b i := by
  induction a with
  | nil => rw [List.nil_append, List.length_nil, Nat.zero_add]
  | cons c a ih =>
    rw [List.cons_append, List.length_cons, Nat.add_right_comm, chars_succ]
    exact ih

theorem chars_no_slash (solid : ∀ c ∈ a, slash c = false) (i : Nat) : chars a i ≠ 0x2f := by
  unfold chars
  split
  next inside =>
    intro cut
    have not_ := solid _ (List.getElem_mem inside)
    rw [slash, cut] at not_
    cases not_
  next => decide

theorem components_nil : components path = [] ↔ ∀ c ∈ path, slash c = true := by
  induction path with
  | nil => exact iff_of_true rfl fun c member => by cases member
  | cons c path ih =>
    cases cut : slash c with
    | true =>
      have same : components (c :: path) = components path := components_slash [] path cut
      rw [same, ih, List.forall_mem_cons, cut]
      exact (and_iff_right rfl).symm
    | false =>
      rw [components_cons cut, List.forall_mem_cons, cut]
      exact iff_of_false (List.cons_ne_nil _ _) fun all => Bool.false_ne_true all.1

theorem components_name (front : CString) {n : Name} (solid : ∀ c ∈ n.text, slash c = false) :
    components (front ++ slashChar :: n.text) = components front ++ [n] := by
  have whole : components n.text = [n] := by
    rw [components, List.splitOnP_eq_singleton solid]
    rfl
  rw [components_slash front n.text slash_slashChar, whole]

theorem lastSlash_pos {i : Nat} (positive : 1 ≤ i) : 1 ≤ lastSlash dir i := by
  induction i with
  | zero => omega
  | succ i ih =>
    cases i with
    | zero => exact Nat.le_refl _
    | succ i =>
      rw [lastSlash]
      split
      · omega
      · exact ih (by omega)

theorem lastSlash_name (front : CString) {n : CString} (solid : ∀ c ∈ n, slash c = false) {i : Nat}
    (from_ : front.length ≤ i) (positive : 1 ≤ i) :
    lastSlash (front ++ slashChar :: n) i = max front.length 1 := by
  induction i with
  | zero => omega
  | succ i ih =>
    cases i with
    | zero =>
      rw [lastSlash]
      omega
    | succ i =>
      rw [lastSlash]
      obtain ⟨k, at_⟩ := Nat.exists_eq_add_of_le from_
      have char : chars (front ++ slashChar :: n) (i + 2) = chars (slashChar :: n) k :=
        at_ ▸ chars_append front (slashChar :: n) k
      rw [char]
      cases k with
      | zero =>
        have first : chars (slashChar :: n) 0 = 0x2f := rfl
        rw [if_pos first]
        omega
      | succ k =>
        rw [chars_succ, if_neg (chars_no_slash solid k)]
        exact ih (by omega) (by omega)

theorem cutLast_name (front : CString) {n : Name} (solid : ∀ c ∈ n.text, slash c = false) :
    components (cutLast (front ++ slashChar :: n.text)) = components front := by
  have long : (front ++ slashChar :: n.text).length - 1 = front.length + n.rest.length + 1 := by
    rw [List.length_append, List.length_cons, Name.text, List.length_cons]
    omega
  rw [cutLast, long, lastSlash_name front solid (by omega) (by omega)]
  cases front with
  | nil => rfl
  | cons c front =>
    have most : max (c :: front).length 1 = (c :: front).length := by
      rw [List.length_cons]
      omega
    rw [most, List.take_left]

theorem cutLast_slash {front : CString} (long : 2 ≤ front.length) :
    cutLast (front ++ [slashChar]) = front := by
  have last : (front ++ [slashChar]).length - 1 = front.length := by
    rw [List.length_append]
    rfl
  have here : lastSlash (front ++ [slashChar]) front.length = front.length := by
    rw [lastSlash_name front (fun c member => by cases member) (Nat.le_refl _) (by omega)]
    omega
  rw [cutLast, last, here, List.take_left]

theorem cutLast_root (none_ : components dir = []) : components (cutLast dir) = [] :=
  components_nil.mpr fun c member => components_nil.mp none_ c (List.mem_of_mem_take member)

end texts

section resolution
variable {v : Volume} {w w' : World} {path path' : CString} {d : Found}

theorem walk_last {parent : Found} {ns : List Name} {n : Name}
    (walked : run (PathWalk.walk v 0 parent (ns ++ [n])) w = some (some d, w')) :
    ∃ p w₁, run (PathWalk.walk v 0 parent ns) w = some (some p, w₁) ∧
      run (lookup v p n) w₁ = some (some d, w') := by
  induction ns generalizing parent w with
  | nil =>
    rw [List.nil_append, PathWalk.walk, run_bind] at walked
    refine ⟨parent, w, rfl, ?_⟩
    cases looked : run (lookup v parent n) w with
    | none =>
      rw [looked] at walked
      cases walked
    | some answer =>
      obtain ⟨found, w₁⟩ := answer
      rw [looked] at walked
      cases found with
      | none => cases walked
      | some path => exact walked
  | cons m ns ih =>
    rw [List.cons_append, PathWalk.walk, run_bind] at walked
    rw [PathWalk.walk, run_bind]
    cases looked : run (lookup v parent m) w with
    | none =>
      rw [looked] at walked
      cases walked
    | some answer =>
      obtain ⟨found, w₁⟩ := answer
      rw [looked] at walked
      cases found with
      | none => cases walked
      | some path =>
        cases ns with
        | nil =>
          obtain ⟨p, w₂, here, next⟩ := ih walked
          cases here
          exact ⟨path, w₁, rfl, next⟩
        | cons m' ns => exact ih walked

theorem names_components (same : components path = components path') :
    Names v w path d w' ↔ Names v w path' d w' := by
  unfold Names
  rw [pathWalk_components, pathWalk_components, same]

theorem toParent_name (front : CString) {n : Name} (own : Undotted n)
    (last : components path = components front ++ [n]) (rest : components path' = components front) :
    ToParent v w path path' := by
  intro d w' named
  have some_ : components path ≠ [] := by
    rw [last]
    exact List.append_ne_nil_of_right_ne_nil _ (List.cons_ne_nil _ _)
  rw [if_neg some_]
  unfold Names at named ⊢
  rw [pathWalk_components, last] at named
  obtain ⟨p, w₁, here, looked⟩ := walk_last named
  rw [← rest, ← pathWalk_components] at here
  exact ⟨p, w₁, n, here, own, looked⟩

end resolution

section entering
variable {v : Volume} {w w' : World} {path : CString}

theorem sysChdir_zero {choose : Finset Nat → Option Nat} {user : Memory} {filename : Nat} {live live' : Finset Nat}
    (ran : run (sysChdir choose v user filename live) w = some ((0, live'), w')) :
    ∃ d, Names v w (stringAt user filename (strnlenUser user filename page4KSize)) d w' ∧ IsDirectory d ∧
      strnlenUser user filename page4KSize ≠ 0 ∧ strnlenUser user filename page4KSize < page4KSize := by
  rw [sysChdir, kmallocOrNull_before] at ran
  generalize strnlenUser user filename page4KSize = pathlen at *
  cases given : choose live with
  | none =>
    rw [given] at ran
    cases ran
  | some block =>
    rw [given] at ran
    by_cases empty : pathlen = 0
    · simp only [empty, ↓reduceIte, kfree_before] at ran
      cases ran
    · by_cases long : page4KSize ≤ pathlen
      · simp only [empty, long, ↓reduceIte, kfree_before] at ran
        cases ran
      · simp only [empty, long, ↓reduceIte, plain_before, run_bind, kfree_before] at ran
        obtain ⟨⟨dentry, w₁⟩, walked, rest⟩ := Option.bind_eq_some_iff.mp ran
        cases dentry with
        | none => cases rest
        | some d =>
          have out := Option.some.inj rest
          have world : w₁ = w' := (Prod.mk.inj out).2
          have answer : (if d.attributes ≠ attrDir then -ENOTDIR else 0) = (0 : Int) :=
            (Prod.mk.inj (Prod.mk.inj out).1).1
          by_cases directory : d.attributes = attrDir
          · exact ⟨d, world ▸ walked, directory, empty, by omega⟩
          · rw [if_pos directory] at answer
            cases answer

/- So chdir lets the shell only into directories. -/
theorem chdir_names {passed : ∀ path, Passed path} (short : path.length < 2 ^ 31)
    (ran : run (chdir v passed path) w = some (0, w')) : ∃ d, Names v w path d w' ∧ IsDirectory d := by
  have length : strlen (passed path).user (passed path).filename = path.length := by
    rw [strlen, stringAt_stored (passed path).stored (passed path).ended (by omega), toInt32_small (by omega)]
  have size : ((path.length : Int) % 2 ^ 64).toNat = path.length := by omega
  have counted : strnlenUser (passed path).user (passed path).filename page4KSize = 0 ∨
      strnlenUser (passed path).user (passed path).filename page4KSize = min path.length page4KSize := by
    simp only [strnlenUser, length, size]
    split
    · exact Or.inr rfl
    · exact Or.inl rfl
  rw [chdir, run_bind] at ran
  obtain ⟨⟨⟨i, live⟩, w₁⟩, answered, rest⟩ := Option.bind_eq_some_iff.mp ran
  cases rest
  obtain ⟨d, named, directory, some_, fits⟩ := sysChdir_zero answered
  have whole : strnlenUser (passed path).user (passed path).filename page4KSize = path.length := by
    rcases counted with none_ | least
    · exact absurd none_ some_
    · omega
  rw [whole, stringAt_stored (passed path).stored (passed path).ended (Nat.le_refl _)] at named
  exact ⟨d, named, directory⟩

end entering

section runs
variable {v : Volume} {dir : CString} {w : World}

theorem cdCommand_up (chdir : CString → Prog Int) {dir : CString} (started : dir.head? = some slashChar)
    (w : World) : run (cdCommand chdir dir dotDot) w = some (if dir = root then dir else cutLast dir, w) := by
  have some_ : dir ≠ [] := fun none_ => by rw [none_] at started; cases started
  rw [cdCommand, if_neg (by decide), if_pos rfl]
  by_cases top : dir = root
  · rw [if_pos top, if_pos top]
    rfl
  · rw [if_neg top, if_neg some_, if_neg top]
    rfl

theorem cutLast_head (started : dir.head? = some slashChar) (below : dir ≠ root) :
    (cutLast dir).head? = some slashChar := by
  cases dir with
  | nil => cases started
  | cons c dir =>
    cases started
    cases dir with
    | nil => exact absurd rfl below
    | cons d dir =>
      have kept := @lastSlash_pos (slashChar :: d :: dir) ((slashChar :: d :: dir).length - 1) (by simp)
      rw [cutLast, List.head?_take, if_neg (by omega)]
      rfl

theorem reached_head (reached : Reached v dir) : dir.head? = some slashChar := by
  induction reached with
  | start => rfl
  | @cd dir dir' arg passed w w' before ran ih =>
    rw [cdCommand] at ran
    split at ran
    · cases ran
      exact ih
    · split at ran
      · split at ran
        · cases ran
          exact ih
        · rename_i below
          split at ran
          · cases ran
          · cases ran
            exact cutLast_head ih below
      · split at ran
        · cases ran
        · rw [run_bind] at ran
          obtain ⟨⟨i, w₁⟩, _, rest⟩ := Option.bind_eq_some_iff.mp ran
          cases rest
          split
          · rw [List.append_assoc, List.head?_append, ih]
            rfl
          · exact ih

/- Where cd leads with an answer of chdir is a directory. -/
theorem cd_enters {passed : ∀ path, Passed path} {arg dir' : CString} {w' : World} (other : arg ≠ dotDot)
    (ran : run (cdCommand (chdir v passed) dir arg) w = some (dir', w')) :
    dir' = dir ∨ ∃ d, Names v w dir' d w' ∧ IsDirectory d := by
  rw [cdCommand] at ran
  split at ran
  · cases ran
    exact Or.inl rfl
  · split at ran
    · cases ran
    · rename_i short
      rw [run_bind] at ran
      obtain ⟨⟨i, w₁⟩, answered, rest⟩ := Option.bind_eq_some_iff.mp ran
      by_cases entered : i = 0
      · rw [if_pos entered] at rest
        rw [entered] at answered
        cases rest
        refine Or.inr (chdir_names ?_ answered)
        rw [List.length_append, List.length_append]
        split
        · rw [List.length_singleton]
          omega
        · rw [List.length_nil]
          omega
      · rw [if_neg entered] at rest
        cases rest
        exact Or.inl rfl

/- With a slash behind a name cd .. stays where it is. -/
theorem cd_up_stays {front : CString} (long : 2 ≤ front.length) :
    components (cutLast (front ++ [slashChar])) = components (front ++ [slashChar]) := by
  have same := components_slash front [] slash_slashChar
  rw [cutLast_slash long, same]
  exact (List.append_nil _).symm

end runs

/-- From every directory that cd leads to, cd .. leads to the parent, if the text ends in a name. -/
theorem cd_up_to_parent {v : Volume} {dir : CString} (reached : Reached v dir)
    (ends : components dir = [] ∨ EndsInName dir) (chdir : CString → Prog Int) (w : World) :
    ∃ dir', run (cdCommand chdir dir dotDot) w = some (dir', w) ∧ (dir = root → dir' = root) ∧
      ToParent v w dir dir' := by
  refine ⟨_, cdCommand_up chdir (reached_head reached) w, fun top => by rw [if_pos top, top], ?_⟩
  by_cases top : dir = root
  · rw [if_pos top]
    intro d w' named
    rw [if_pos (by rw [top]; rfl)]
    exact named
  · rw [if_neg top]
    rcases ends with none_ | name
    · intro d w' named
      rw [if_pos none_]
      exact (names_components (none_.trans (cutLast_root none_).symm)).mp named
    · obtain ⟨front, n, text, solid, own⟩ := name
      rw [text]
      exact toParent_name front own (components_name front solid) (cutLast_name front solid)

def aEntry : List UInt8 :=
  0x41 :: List.replicate 10 0x20 ++ 0x10 :: List.replicate 14 0 ++ [3]

def aDisk : World := { directoryDisk aEntry with
  disk := fun i => if 1036 ≤ i ∧ i < 1040 then 0xff else (directoryDisk aEntry).disk i }

theorem aName_solid : (0x41 : UInt8) ≠ 0 := by decide

def aName : Name := ⟨⟨0x41, aName_solid⟩, []⟩

def atZero (path : CString) : Passed path where
  user := chars path
  filename := 0
  stored := by
    intro i inside
    rw [Nat.zero_add]
    exact dif_pos inside
  ended := by
    rw [Nat.zero_add]
    exact StringCopy.chars_end
  choose := fun _ => some 0
  live := ∅

theorem cd_a : run (cdCommand (chdir nestedVolume atZero) root aName.text) aDisk =
    some (slashChar :: aName.text, aDisk) := rfl

theorem cd_up_to_parent_a :
    ∃ dir', run (cdCommand (chdir nestedVolume atZero) (slashChar :: aName.text) dotDot) aDisk =
        some (dir', aDisk) ∧ (slashChar :: aName.text = root → dir' = root) ∧
      ToParent nestedVolume aDisk (slashChar :: aName.text) dir' :=
  cd_up_to_parent (.cd aName.text .start cd_a)
    (Or.inr ⟨[], aName, rfl, by decide +kernel, by decide, by decide⟩) _ _

theorem cd_a_slash : run (cdCommand (chdir nestedVolume atZero) root (aName.text ++ [slashChar])) aDisk =
    some (slashChar :: aName.text ++ [slashChar], aDisk) := rfl

theorem a_empty : ∀ e ∈ directoryEntries oneSectorVolume aDisk 1 3,
    live (viewOf oneSectorVolume aDisk (heapBefore aDisk) (heapBlock aDisk) e.1) e.2 = false := by
  decide +kernel

/- After cd A/ the parent of A would be the root. -/
theorem cd_up_missed : ¬ ∀ (v : Volume) (dir : CString), Reached v dir →
    ∀ (chdir : CString → Prog Int) (w : World),
      ∃ dir', run (cdCommand chdir dir dotDot) w = some (dir', w) ∧ (dir = root → dir' = root) ∧
        ToParent v w dir dir' := by
  intro claim
  have reached : Reached nestedVolume (slashChar :: aName.text ++ [slashChar]) := .cd _ .start cd_a_slash
  obtain ⟨dir', ran, _, parent⟩ := claim _ _ reached (fun _ => .fault) aDisk
  have cut : cutLast (slashChar :: aName.text ++ [slashChar]) = slashChar :: aName.text :=
    cutLast_slash (Nat.le_refl _)
  rw [cdCommand_up _ rfl, if_neg (by decide), cut] at ran
  cases ran
  have named : Names nestedVolume aDisk (slashChar :: aName.text) ⟨⟨0, 3, 2, 0⟩, attrDir⟩ aDisk := rfl
  have same : components (cutLast (slashChar :: aName.text ++ [slashChar])) =
      components (slashChar :: aName.text ++ [slashChar]) := cd_up_stays (Nat.le_refl _)
  rw [cut] at same
  have up := parent _ _ ((names_components same).mp named)
  rw [← same] at up
  obtain ⟨p, w₁, n, again, _, found⟩ := up
  have both := named.symm.trans again
  cases both
  obtain ⟨e, first, _⟩ := (lookup_run oneSectorVolume aDisk (n.inBlock fun _ => 0) 1 3 _).mp ⟨_, found⟩
  have taken := List.find?_some first
  rw [Taken, a_empty e (List.mem_of_find?_eq_some first)] at taken
  cases taken

end CurrentDirectory
