import Q2os.TableTree

/- Trees of tables in which no table is shared: what a new entry changes about the paths. -/
namespace TableTree

/- No two paths lead to one table. -/
def Unshared (f : Format) (memory : Words) (root : Nat) : Prop :=
  ∀ path path' t, path.length < f.depth → path'.length < f.depth → Within f 0 path →
    Within f 0 path' → walk memory path root = some t → walk memory path' root = some t →
    path = path'

/- The entries that a walk reads, until one is empty. -/
def entriesOn (memory : Words) : List Nat → Nat → List Nat
  | [], _ => []
  | i :: path, t =>
    memory (slot t i) ::
      if memory (slot t i) % 2 = 0 then [] else entriesOn memory path (base (memory (slot t i)))

def tablesOn (memory : Words) : List Nat → Nat → List Nat
  | [], _ => []
  | i :: path, t =>
    t :: if memory (slot t i) % 2 = 0 then [] else tablesOn memory path (base (memory (slot t i)))

variable {f : Format} {memory memory' : Words} {level : Nat → List Nat} {root : Nat}

theorem within_append {n : Nat} {pre post : List Nat} (within : Within f n (pre ++ post)) :
    Within f n pre ∧ Within f (n + pre.length) post := by
  induction pre generalizing n with
  | nil => exact ⟨trivial, within⟩
  | cons i pre ih =>
    obtain ⟨first, rest⟩ := ih within.2
    have far : n + 1 + pre.length = n + (pre.length + 1) := by omega
    rw [far] at rest
    exact ⟨⟨within.1, first⟩, rest⟩

theorem tablesOn_aligned {t : Nat} (path : List Nat) (entry : Nat)
    (member : t ∈ tablesOn memory path (base entry)) : Aligned t := by
  induction path generalizing entry with
  | nil => cases member
  | cons i path ih =>
    rw [tablesOn] at member
    rcases List.mem_cons.mp member with rfl | later
    · exact Nat.mul_mod_left _ _
    · split at later
      · cases later
      · exact ih _ later

theorem walk_unread {path : List Nat} {t : Nat}
    (same : ∀ t' ∈ tablesOn memory path t, ∀ i ∈ path, memory' (slot t' i) = memory (slot t' i)) :
    walk memory' path t = walk memory path t := by
  induction path generalizing t with
  | nil => rfl
  | cons i path ih =>
    have here := same t List.mem_cons_self i List.mem_cons_self
    rw [walk, walk, here]
    split
    · rfl
    · next present =>
      refine ih fun t' member j inside => same t' ?_ j (List.mem_cons_of_mem _ inside)
      rw [tablesOn, if_neg present]
      exact List.mem_cons_of_mem _ member

/- A walk after a store is one from before, or it passes through the slot. -/
theorem walk_update {a x : Nat} {path : List Nat} {t u : Nat}
    (walked : walk (Function.update memory a x) path t = some u) :
    walk memory path t = some u ∨ ∃ pre i post v, path = pre ++ i :: post ∧
      walk memory pre t = some v ∧ slot v i = a ∧
      walk (Function.update memory a x) post (base x) = some u := by
  induction path generalizing t with
  | nil => exact Or.inl walked
  | cons i path ih =>
    rw [walk] at walked
    split at walked
    · cases walked
    · next present =>
      by_cases here : slot t i = a
      · rw [here, Function.update_self] at walked
        exact Or.inr ⟨[], i, path, t, rfl, rfl, here, walked⟩
      · rw [Function.update_of_ne here] at walked present
        rcases ih walked with old | ⟨pre, j, post, v, rfl, first, there, rest⟩
        · left
          rw [walk, if_neg present]
          exact old
        · refine Or.inr ⟨i :: pre, j, post, v, rfl, ?_, there, rest⟩
          rw [walk, if_neg present]
          exact first

/-- A walk after a new entry is one from before, or it goes through the table of the entry. -/
theorem Tree.walk_link (ok : f.Ok) (tree : Tree f memory level) (top : root ∈ level 0)
    {n t i x w : Nat} (deep : n < f.depth) (listed : t ∈ level n) (within : i < f.fan n)
    {path : List Nat} (short : path.length ≤ f.depth) (inside : Within f 0 path)
    (walked : walk (Function.update memory (slot t i) x) path root = some w) :
    walk memory path root = some w ∨ ∃ pre post, path = pre ++ i :: post ∧ pre.length = n ∧
      walk memory pre root = some t ∧
      walk (Function.update memory (slot t i) x) post (base x) = some w := by
  rcases walk_update walked with old | ⟨pre, j, post, v, rfl, first, here, rest⟩
  · exact Or.inl old
  · right
    rw [List.length_append, List.length_cons] at short
    obtain ⟨inside_pre, inside_post⟩ := within_append inside
    have listed_v : v ∈ level pre.length := by
      have there := walk_listed ok tree (by omega) inside_pre top first
      rwa [Nat.zero_add] at there
    have deep_v : pre.length < f.depth := by omega
    have wide := ok.fan pre.length deep_v
    have wide' := ok.fan n deep
    have small : j < f.fan pre.length := by
      have index := inside_post.1
      rwa [Nat.zero_add] at index
    have same : v = t := by
      by_contra differ
      exact slot_ne (tree.aligned _ (Nat.le_of_lt deep_v) v listed_v)
        (tree.aligned n (Nat.le_of_lt deep) t listed) differ (by omega) (by omega) here
    subst same
    have index : j = i := by
      unfold slot at here
      omega
    subst index
    exact ⟨pre, post, rfl, tree.separate _ deep_v n deep v listed_v listed, first, rest⟩

theorem Unshared.frame (ok : f.Ok) (tree : Tree f memory level) (top : root ∈ level 0)
    (same : SameTables f level memory memory') (unshared : Unshared f memory root) :
    Unshared f memory' root := by
  intro path path' t short short' within within' first second
  rw [walk_frame ok tree same (by omega) within top] at first
  rw [walk_frame ok tree same (by omega) within' top] at second
  exact unshared path path' t short short' within within' first second

theorem walk_empty {n u w : Nat} (empty : ∀ j < f.fan n, memory (slot u j) = 0) {path : List Nat}
    (within : Within f n path) (walked : walk memory path u = some w) : path = [] ∧ w = u := by
  cases path with
  | nil =>
    cases walked
    exact ⟨rfl, rfl⟩
  | cons i path =>
    rw [walk, if_pos (by rw [empty i within.1])] at walked
    cases walked

section link
variable {n t i u : Nat}

/-- A path that is new with a new empty table ends there. -/
theorem Tree.link_table (ok : f.Ok) (tree : Tree f memory level) (top : root ∈ level 0)
    (deep : n + 1 < f.depth) (listed : t ∈ level n) (within : i < f.fan n) (aligned : Aligned u)
    (fresh : u ∉ level n) (empty : ∀ j < f.fan (n + 1), memory (slot u j) = 0)
    {path : List Nat} {w : Nat} (short : path.length ≤ f.depth) (inside : Within f 0 path)
    (walked : walk (Function.update memory (slot t i) (u + f.tag n)) path root = some w) :
    walk memory path root = some w ∨
      ∃ pre, path = pre ++ [i] ∧ pre.length = n ∧ walk memory pre root = some t ∧ w = u := by
  rcases tree.walk_link ok top (by omega) listed within short inside walked with
    old | ⟨pre, post, rfl, long, first, rest⟩
  · exact Or.inl old
  · have wide := ok.fan n (by omega)
    have wide' := ok.fan (n + 1) deep
    have place := tree.aligned n (by omega) t listed
    have still : ∀ j < f.fan (n + 1),
        Function.update memory (slot t i) (u + f.tag n) (slot u j) = 0 := by
      intro j small
      have differ : u ≠ t := fun same => fresh (same ▸ listed)
      rw [Function.update_of_ne (slot_ne aligned place differ (by omega) (by omega))]
      exact empty j small
    rw [base_entry aligned (ok.tag n (by omega)).2] at rest
    have below := (within_append inside).2.2
    rw [Nat.zero_add, long] at below
    obtain ⟨rfl, rfl⟩ := walk_empty still below rest
    exact Or.inr ⟨pre, rfl, long, first, rfl⟩

theorem Unshared.table (ok : f.Ok) (tree : Tree f memory level) (top : root ∈ level 0)
    (unshared : Unshared f memory root) (deep : n + 1 < f.depth) (listed : t ∈ level n)
    (within : i < f.fan n) (aligned : Aligned u) (fresh : ∀ k < f.depth, u ∉ level k)
    (empty : ∀ j < f.fan (n + 1), memory (slot u j) = 0) :
    Unshared f (Function.update memory (slot t i) (u + f.tag n)) root := by
  have absent : ∀ {path : List Nat}, path.length < f.depth → Within f 0 path →
      walk memory path root ≠ some u := by
    intro path short inside walked
    have there := walk_listed ok tree (by omega) inside top walked
    exact fresh (0 + path.length) (by omega) there
  intro path path' w short short' inside inside' first second
  have new := tree.link_table ok top deep listed within aligned (fresh n (by omega)) empty
    (Nat.le_of_lt short) inside first
  have new' := tree.link_table ok top deep listed within aligned (fresh n (by omega)) empty
    (Nat.le_of_lt short') inside' second
  rcases new with old | ⟨pre, rfl, long, before, rfl⟩
  · rcases new' with old' | ⟨pre', rfl, long', before', rfl⟩
    · exact unshared path path' w short short' inside inside' old old'
    · exact absurd old (absent short inside)
  · rcases new' with old' | ⟨pre', rfl, long', before', same⟩
    · exact absurd old' (absent short' inside')
    · rw [unshared pre pre' t (by omega) (by omega) (within_append inside).1
        (within_append inside').1 before before']

/-- A path that is new with a new leaf ends there. -/
theorem Tree.link_leaf (ok : f.Ok) (tree : Tree f memory level) (top : root ∈ level 0)
    (last : n + 1 = f.depth) (listed : t ∈ level n) (within : i < f.fan n) (aligned : Aligned u)
    {path : List Nat} {w : Nat} (short : path.length ≤ f.depth) (inside : Within f 0 path)
    (walked : walk (Function.update memory (slot t i) (u + f.tag n)) path root = some w) :
    walk memory path root = some w ∨
      ∃ pre, path = pre ++ [i] ∧ pre.length = n ∧ walk memory pre root = some t ∧ w = u := by
  rcases tree.walk_link ok top (by omega) listed within short inside walked with
    old | ⟨pre, post, rfl, long, first, rest⟩
  · exact Or.inl old
  · rw [List.length_append, List.length_cons] at short
    have none : post = [] := List.eq_nil_of_length_eq_zero (by omega)
    subst none
    rw [base_entry aligned (ok.tag n (by omega)).2] at rest
    cases rest
    exact Or.inr ⟨pre, rfl, long, first, rfl⟩

theorem Unshared.leaf (ok : f.Ok) (tree : Tree f memory level) (top : root ∈ level 0)
    (unshared : Unshared f memory root) (last : n + 1 = f.depth) (listed : t ∈ level n)
    (within : i < f.fan n) (aligned : Aligned u) :
    Unshared f (Function.update memory (slot t i) (u + f.tag n)) root := by
  have old : ∀ {path : List Nat} {w : Nat}, path.length < f.depth → Within f 0 path →
      walk (Function.update memory (slot t i) (u + f.tag n)) path root = some w →
      walk memory path root = some w := by
    intro path w short inside walked
    rcases tree.link_leaf ok top last listed within aligned (Nat.le_of_lt short) inside walked with
      before | ⟨pre, rfl, long, -, -⟩
    · exact before
    · rw [List.length_append, List.length_singleton] at short
      omega
  intro path path' w short short' inside inside' first second
  exact unshared path path' w short short' inside inside' (old short inside first)
    (old short' inside' second)

end link

/- The tags of the entries on the way to a leaf. -/
theorem walk_tags (ok : f.Ok) (tree : Tree f memory level) {path : List Nat} {n t u : Nat}
    (short : n + path.length ≤ f.depth) (within : Within f n path) (listed : t ∈ level n)
    (leads : walk memory path t = some u) :
    (entriesOn memory path t).map (· % tableBytes) =
      (List.range' n path.length).map f.tag := by
  induction path generalizing n t with
  | nil => rfl
  | cons i path ih =>
    rw [List.length_cons] at short
    have deep : n < f.depth := by omega
    rw [walk] at leads
    split at leads
    · cases leads
    · next present =>
      rw [entriesOn, if_neg present, List.length_cons, List.range'_succ, List.map_cons,
        List.map_cons]
      rcases tree.entries n deep t listed i within.1 with empty | ⟨v, below, entry⟩
      · rw [empty] at present
        exact absurd rfl present
      · have aligned := tree.aligned (n + 1) deep v below
        have tag := (ok.tag n deep).2
        rw [entry, base_entry aligned tag] at leads ⊢
        rw [ih (by omega) within.2 below leads]
        have low : (v + f.tag n) % tableBytes = f.tag n := by
          unfold Aligned at aligned
          unfold tableBytes at *
          omega
        rw [low]

end TableTree
