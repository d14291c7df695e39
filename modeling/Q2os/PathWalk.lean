import Q2os.FileEntry
import Q2os.OpenFiles

/- path_walk over the characters of a path, and what its caller takes it for: one component after
   the other, through directories. -/
namespace PathWalk
open ByteMemory BlockProgram Fat32 NameMatching OpenFiles

abbrev CString := List { c : UInt8 // c ≠ 0 }

def slash (c : { c : UInt8 // c ≠ 0 }) : Bool := c.1 = 0x2f
def noSlash (c : { c : UInt8 // c ≠ 0 }) : Bool := !slash c

/-- A component of a path: some characters. -/
structure Name where
  first : { c : UInt8 // c ≠ 0 }
  rest : CString

def Name.text (n : Name) : CString := n.first :: n.rest

/- path->name: as much of a block as the component needs is cleared before the copy. -/
def Name.inBlock (n : Name) (block : Memory) : Component where
  name := fun i =>
    if inside : i < n.text.length then n.text[i].1 else if i = n.text.length then 0 else block i
  nameLength := n.text.length
  nonempty := Nat.succ_pos _
  inside := by
    intro i within
    rw [dif_pos within]
    exact n.text[i].2
  terminated := by simp

def lookup (v : Volume) (parent : Found) (n : Name) : Prog (Option Found) := do
  let block ← alloc
  FAT32Lookup v.rounds v.fsbi parent.inode.firstCluster (n.inBlock block)

def lastComponent (flags : Nat) (parent path : Found) : Found :=
  if flags &&& 1 ≠ 0 then parent else path

/- for(;;), at a character that is no slash. A round takes a character, so there are not more of
   them than characters. -/
def walkFrom (v : Volume) (flags : Nat) :
    Nat → Found → { c : UInt8 // c ≠ 0 } → CString → Prog (Option Found)
  | 0, _, _, _ => .fault
  | rounds + 1, parent, c, name => do
    let tmpname : Name := ⟨c, name.takeWhile noSlash⟩
    let name := name.dropWhile noSlash
    match ← lookup v parent tmpname with
    | none => return none
    | some path =>
      if name = [] then return some (lastComponent flags parent path)
      else
        match name.dropWhile slash with
        | [] => return some (lastComponent flags parent path)
        | c :: name => walkFrom v flags rounds path c name

def pathWalk (v : Volume) (path : CString) (flags : Nat) : Prog (Option Found) :=
  match path.dropWhile slash with
  | [] => return some v.root
  | c :: name => walkFrom v flags (name.length + 1) v.root c name

def nameOf : CString → Option Name
  | [] => none
  | c :: rest => some ⟨c, rest⟩

/-- The non-empty components between the slashes. -/
def components (path : CString) : List Name := (path.splitOnP slash).filterMap nameOf

/-- A slash cuts a path in two, wherever it stands. -/
theorem components_slash (a b : CString) {c : { c : UInt8 // c ≠ 0 }} (cut : slash c = true) :
    components (a ++ c :: b) = components a ++ components b := by
  rw [components, List.splitOnP_append_cons a b cut, List.filterMap_append]
  rfl

theorem components_leading (path : CString) :
    components (path.dropWhile slash) = components path := by
  induction path with
  | nil => rfl
  | cons c path ih =>
    cases cut : slash c with
    | true =>
      rw [List.dropWhile_cons_of_pos cut, ih]
      exact (components_slash [] path cut).symm
    | false => rw [List.dropWhile_cons_of_neg (by simp [cut])]

theorem components_cons {c : { c : UInt8 // c ≠ 0 }} (solid : slash c = false) (name : CString) :
    components (c :: name) =
      ⟨c, name.takeWhile noSlash⟩ :: components (name.dropWhile noSlash) := by
  have whole : ∀ x ∈ c :: name.takeWhile noSlash, slash x = false := by
    intro x member
    rcases List.mem_cons.mp member with here | later
    · rw [here]
      exact solid
    · have kept := List.all_eq_true.mp List.all_takeWhile x later
      simpa [noSlash] using kept
  have first : components (c :: name.takeWhile noSlash) = [⟨c, name.takeWhile noSlash⟩] := by
    rw [components, List.splitOnP_eq_singleton whole]
    rfl
  have parts : c :: name = (c :: name.takeWhile noSlash) ++ name.dropWhile noSlash := by
    rw [List.cons_append, List.takeWhile_append_dropWhile]
  cases rest : name.dropWhile noSlash with
  | nil =>
    rw [rest, List.append_nil] at parts
    rw [parts, first]
    rfl
  | cons s rest' =>
    have cut : slash s = true := by
      have stop := List.head?_dropWhile_not noSlash name
      rw [rest] at stop
      simpa [noSlash] using stop
    rw [rest] at parts
    rw [parts, components_slash _ _ cut, first]
    exact congrArg _ (components_slash [] rest' cut).symm

def walk (v : Volume) (flags : Nat) : Found → List Name → Prog (Option Found)
  | parent, [] => return some parent
  | parent, n :: rest => do
    match ← lookup v parent n with
    | none => return none
    | some path =>
      match rest with
      | [] => return some (lastComponent flags parent path)
      | n :: rest => walk v flags path (n :: rest)

theorem walkFrom_components (v : Volume) (flags rounds : Nat) (parent : Found)
    {c : { c : UInt8 // c ≠ 0 }} (solid : slash c = false) {name : CString}
    (enough : name.length < rounds) :
    walkFrom v flags rounds parent c name = walk v flags parent (components (c :: name)) := by
  induction rounds generalizing parent c name with
  | zero => omega
  | succ rounds ih =>
    have behind := components_leading (name.dropWhile noSlash)
    have shorter : ((name.dropWhile noSlash).dropWhile slash).length ≤ name.length :=
      ((List.dropWhile_sublist slash).trans (List.dropWhile_sublist noSlash)).length_le
    rw [components_cons solid, ← behind, walkFrom, walk]
    congr 1
    funext found
    cases found with
    | none => rfl
    | some path =>
      dsimp only
      cases left : (name.dropWhile noSlash).dropWhile slash with
      | nil =>
        split
        · rfl
        · rfl
      | cons c' name' =>
        have more : name.dropWhile noSlash ≠ [] := by
          intro none_
          rw [none_] at left
          cases left
        have next : slash c' = false := by
          have stop := List.head?_dropWhile_not slash (name.dropWhile noSlash)
          rw [left] at stop
          simpa using stop
        rw [left] at shorter
        rw [if_neg more, components_cons next]
        dsimp only
        rw [ih path next (by simp only [List.length_cons] at shorter; omega), components_cons next]

/-- path_walk makes no difference between paths with the same components. -/
theorem pathWalk_components (v : Volume) (path : CString) (flags : Nat) :
    pathWalk v path flags = walk v flags v.root (components path) := by
  rw [pathWalk, ← components_leading path]
  cases left : path.dropWhile slash with
  | nil => rfl
  | cons c name =>
    have solid : slash c = false := by
      have stop := List.head?_dropWhile_not slash path
      rw [left] at stop
      simpa using stop
    exact walkFrom_components v flags (name.length + 1) v.root solid (Nat.lt_succ_self _)

/-- One component after the other from an entry on, in the world as the lookups leave it: the last
    one's parent and itself, or none. Only passable entries are gone through. -/
inductive Resolves (v : Volume) (passable : Found → Prop) :
    World → Found → List Name → Option (Found × Found) → World → Prop where
  | here {w : World} {entry : Found} : Resolves v passable w entry [] (some (entry, entry)) w
  | last {w w' : World} {parent path : Found} {n : Name}
      (found : run (lookup v parent n) w = some (some path, w')) :
      Resolves v passable w parent [n] (some (parent, path)) w'
  | missing {w w' : World} {parent : Found} {n : Name} {rest : List Name}
      (none_ : run (lookup v parent n) w = some (none, w')) :
      Resolves v passable w parent (n :: rest) none w'
  | refused {w w' : World} {parent path : Found} {n n' : Name} {rest : List Name}
      (found : run (lookup v parent n) w = some (some path, w')) (shut : ¬ passable path) :
      Resolves v passable w parent (n :: n' :: rest) none w'
  | through {w w' w'' : World} {parent path : Found} {n n' : Name} {rest : List Name}
      {r : Option (Found × Found)} (found : run (lookup v parent n) w = some (some path, w'))
      (pass : passable path) (tail : Resolves v passable w' path (n' :: rest) r w'') :
      Resolves v passable w parent (n :: n' :: rest) r w''

def IsDirectory (entry : Found) : Prop := entry.attributes = attrDir

def answered (flags : Nat) (r : Option (Found × Found)) : Option Found :=
  r.map fun p => lastComponent flags p.1 p.2

/-- path_walk gives what resolving the components through directories gives, and for flags & 1
    the parent if there is an entry. -/
def Meets (v : Volume) (path : CString) (w : World) : Prop :=
  ∀ r w', Resolves v IsDirectory w v.root (components path) r w' →
    (∃ w₀, run (pathWalk v path 0) w = some (r.map Prod.snd, w₀)) ∧
    ∀ p, r = some p → ∃ w₁, run (pathWalk v path 1) w = some (some p.1, w₁)

/-- Every component before the last that is found is a directory; behind one that is none, some
    component is not found in what the file holds, taken for a directory. -/
def ThroughDirectories (v : Volume) : World → Found → List Name → Prop
  | w, parent, n :: n' :: rest => ∀ path w', run (lookup v parent n) w = some (some path, w') →
    (IsDirectory path → ThroughDirectories v w' path (n' :: rest)) ∧
    (¬ IsDirectory path →
      ∃ w'', Resolves v (fun _ => True) w' path (n' :: rest) none w'')
  | _, _, _ => True

section resolution
variable {v : Volume} {passable : Found → Prop} {w w' w'' : World} {parent path : Found} {n : Name}
  {rest : List Name} {r : Option (Found × Found)}

theorem resolves_none (none_ : run (lookup v parent n) w = some (none, w')) :
    Resolves v passable w parent (n :: rest) r w'' ↔ r = none ∧ w'' = w' := by
  constructor
  · intro resolves
    cases resolves with
    | last found => simp [none_] at found
    | missing other =>
      rw [none_] at other
      exact ⟨rfl, (Prod.mk.inj (Option.some.inj other)).2.symm⟩
    | refused found => simp [none_] at found
    | through found => simp [none_] at found
  · intro same
    rw [same.1, same.2]
    exact .missing none_

theorem resolves_last (found : run (lookup v parent n) w = some (some path, w')) :
    Resolves v passable w parent [n] r w'' ↔ r = some (parent, path) ∧ w'' = w' := by
  constructor
  · intro resolves
    cases resolves with
    | last other =>
      rw [found] at other
      cases other
      exact ⟨rfl, rfl⟩
    | missing none_ => simp [found] at none_
  · intro same
    rw [same.1, same.2]
    exact .last found

theorem resolves_through {n' : Name} (found : run (lookup v parent n) w = some (some path, w')) :
    Resolves v passable w parent (n :: n' :: rest) r w'' ↔
      (passable path ∧ Resolves v passable w' path (n' :: rest) r w'') ∨
        (¬ passable path ∧ r = none ∧ w'' = w') := by
  constructor
  · intro resolves
    cases resolves with
    | missing none_ => simp [found] at none_
    | refused other shut =>
      rw [found] at other
      cases other
      exact Or.inr ⟨shut, rfl, rfl⟩
    | through other pass tail =>
      rw [found] at other
      cases other
      exact Or.inl ⟨pass, tail⟩
  · intro either
    rcases either with ⟨pass, tail⟩ | ⟨shut, same, last⟩
    · exact .through found pass tail
    · rw [same, last]
      exact .refused found shut

/-- path_walk resolves through entries of any kind. -/
theorem walk_run (flags : Nat) {ns : List Name} {a : Option Found} :
    run (walk v flags parent ns) w = some (a, w') ↔
      ∃ r, Resolves v (fun _ => True) w parent ns r w' ∧ a = answered flags r := by
  induction ns generalizing w parent with
  | nil =>
    have same : lastComponent flags parent parent = parent := ite_self parent
    constructor
    · intro ran
      cases ran
      exact ⟨_, .here, by rw [answered, Option.map_some, same]⟩
    · intro resolved
      obtain ⟨r, resolves, made⟩ := resolved
      cases resolves
      rw [made, answered, Option.map_some, same]
      rfl
  | cons n rest ih =>
    rw [walk, run_bind]
    cases found : run (lookup v parent n) w with
    | none =>
      constructor
      · intro ran
        cases ran
      · intro resolved
        obtain ⟨r, resolves, _⟩ := resolved
        cases resolves <;> simp_all
    | some answer =>
      obtain ⟨looked, w₁⟩ := answer
      cases looked with
      | none =>
        simp only [resolves_none found]
        constructor
        · intro ran
          cases ran
          exact ⟨none, ⟨rfl, rfl⟩, rfl⟩
        · intro resolved
          obtain ⟨r, ⟨same, last⟩, made⟩ := resolved
          rw [made, same, last]
          rfl
      | some path =>
        cases rest with
        | nil =>
          simp only [resolves_last found]
          constructor
          · intro ran
            cases ran
            exact ⟨_, ⟨rfl, rfl⟩, rfl⟩
          · intro resolved
            obtain ⟨r, ⟨same, last⟩, made⟩ := resolved
            rw [made, same, last]
            rfl
        | cons n' rest =>
          simp only [resolves_through found, true_and, not_true_eq_false, false_and, or_false]
          exact ih

theorem resolves_any {ns : List Name} {p : Found × Found}
    (resolves : Resolves v passable w parent ns (some p) w') :
    Resolves v (fun _ => True) w parent ns (some p) w' := by
  induction ns generalizing w parent with
  | nil =>
    cases resolves
    exact .here
  | cons n rest ih =>
    cases resolves with
    | last found => exact .last found
    | through found pass tail => exact .through found trivial (ih tail)

/- Resolving through any entries comes out as through directories. -/
theorem same_resolution_iff {ns : List Name} :
    (∀ r w', Resolves v IsDirectory w parent ns r w' →
      ∃ w'', Resolves v (fun _ => True) w parent ns r w'') ↔ ThroughDirectories v w parent ns := by
  induction ns generalizing w parent with
  | nil => exact ⟨fun _ => trivial, fun _ r w' resolves => by cases resolves; exact ⟨_, .here⟩⟩
  | cons n rest ih =>
    cases rest with
    | nil =>
      refine ⟨fun _ => trivial, fun _ r w' resolves => ?_⟩
      cases resolves with
      | last found => exact ⟨_, .last found⟩
      | missing none_ => exact ⟨_, .missing none_⟩
    | cons n' rest =>
      constructor
      · intro same path w₁ found
        constructor
        · intro directory
          refine ih.mp fun r w' resolves => ?_
          obtain ⟨w'', any⟩ := same r w' (.through found directory resolves)
          exact ⟨w'', by simpa using (resolves_through found).mp any⟩
        · intro shut
          obtain ⟨w'', any⟩ := same none w₁ (.refused found shut)
          exact ⟨w'', by simpa using (resolves_through found).mp any⟩
      · intro through r w' resolves
        cases resolves with
        | missing none_ => exact ⟨_, .missing none_⟩
        | refused found shut =>
          obtain ⟨w'', misses⟩ := (through _ _ found).2 shut
          exact ⟨w'', .through found trivial misses⟩
        | through found directory tail =>
          obtain ⟨w'', any⟩ := ih.mpr ((through _ _ found).1 directory) _ _ tail
          exact ⟨w'', .through found trivial any⟩

end resolution

/-- path_walk resolves every path that leads through directories only, and no other one but by
    missing a component behind what is none. -/
theorem path_walk_resolves_iff (v : Volume) (path : CString) (w : World) :
    Meets v path w ↔ ThroughDirectories v w v.root (components path) := by
  have ran : ∀ flags a w', run (pathWalk v path flags) w = some (a, w') ↔
      ∃ r, Resolves v (fun _ => True) w v.root (components path) r w' ∧ a = answered flags r :=
    fun flags a w' => by rw [pathWalk_components, walk_run]
  have plain : ∀ r, answered 0 r = r.map Prod.snd := fun _ => rfl
  rw [← same_resolution_iff]
  constructor
  · intro meets r w' resolves
    obtain ⟨⟨w₀, walked⟩, _⟩ := meets r w' resolves
    cases r with
    | some p => exact ⟨w', resolves_any resolves⟩
    | none =>
      obtain ⟨r', any, made⟩ := (ran 0 _ w₀).mp walked
      rw [Option.map_eq_none_iff.mp ((plain r').symm.trans made.symm)] at any
      exact ⟨w₀, any⟩
  · intro same r w' resolves
    obtain ⟨w'', any⟩ := same r w' resolves
    refine ⟨⟨w'', (ran 0 _ w'').mpr ⟨r, any, (plain r).symm⟩⟩, fun p found => ?_⟩
    rw [found] at any
    exact ⟨w'', (ran 1 _ w'').mpr ⟨some p, any, rfl⟩⟩

def nestedEntry : List UInt8 :=
  readmeEntry ++ List.replicate 14 0 ++ [3, 0, 0, 2, 0, 0] ++ List.replicate 480 0 ++ readmeEntry

def nestedDisk : World := { directoryDisk nestedEntry with
  disk := fun i => if 1036 ≤ i ∧ i < 1040 then 0xff else (directoryDisk nestedEntry).disk i }

def nestedVolume : Volume :=
  ⟨oneSectorVolume, 2, 1, ⟨fun _ _ _ => .fault, fun _ _ _ => .fault⟩⟩

def readmeName : Name :=
  ⟨⟨0x52, by decide⟩, [⟨0x45, by decide⟩, ⟨0x41, by decide⟩, ⟨0x44, by decide⟩, ⟨0x4d, by decide⟩,
    ⟨0x45, by decide⟩, ⟨0x2e, by decide⟩, ⟨0x54, by decide⟩, ⟨0x58, by decide⟩, ⟨0x54, by decide⟩]⟩

def nestedPath : CString :=
  ⟨0x2f, by decide⟩ :: readmeName.text ++ ⟨0x2f, by decide⟩ :: readmeName.text

theorem path_through_file : ¬ ∀ (v : Volume) (path : CString) (w : World), Meets v path w := by
  intro claim
  have found : run (lookup nestedVolume nestedVolume.root readmeName) nestedDisk =
      some (some ⟨⟨512, 3, 2, 0⟩, attrFile⟩, nestedDisk) := rfl
  have parts : components nestedPath = [readmeName, readmeName] := rfl
  have refused : Resolves nestedVolume IsDirectory nestedDisk nestedVolume.root
      (components nestedPath) none nestedDisk :=
    parts ▸ .refused found (by decide : ¬ attrFile = attrDir)
  obtain ⟨⟨w₀, walked⟩, _⟩ := claim nestedVolume nestedPath nestedDisk none _ refused
  have leads : (run (pathWalk nestedVolume nestedPath 0) nestedDisk).map
      (fun a => a.1.isSome) = some true := by decide +kernel
  rw [walked] at leads
  cases leads

end PathWalk
