import Q2os.PrintNumber
import Q2os.ReadMap
import Mathlib.Data.Nat.Find

/- The symbol table of the kernel: kallsyms.c makes it of a listing of nm, and backtrace.c looks
   addresses up in it. -/
namespace Kallsyms
open ByteMemory
open Fat32 (toInt32)

def symbolLength (e : SymbolEntry) : Nat := e.symbol.length + 1

def textName : List UInt8 := [0x5f, 0x74, 0x65, 0x78, 0x74]
def etextName : List UInt8 := [0x5f, 0x65, 0x74, 0x65, 0x78, 0x74]

/- The loop of read_map over the table, for one of the names. -/
def addressOf (name : List UInt8) (table : List SymbolEntry) : Nat :=
  table.foldl (fun found e => if e.symbol = name then e.address else found) 0

def symbolValid (text etext : Nat) (e : SymbolEntry) : Bool :=
  ¬ (e.address < text ∨ e.address > etext)

/- The three loops of write_src: body is what one of them does with an entry it does not skip. -/
def pass {σ : Type} (valid : SymbolEntry → Bool) (body : σ → SymbolEntry → σ) :
    Nat → σ → List SymbolEntry → σ
  | _, s, [] => s
  | lastAddr, s, e :: table =>
    if ¬ valid e then pass valid body lastAddr s table
    else if e.address = lastAddr then pass valid body lastAddr s table
    else pass valid body e.address (body s e) table

structure Source where
  addresses : List Nat
  symsNum : Nat
  index : List Nat
  names : List (List UInt8)

def writeSrc (table : List SymbolEntry) : Source :=
  let valid := symbolValid (addressOf textName table) (addressOf etextName table)
  let counted := pass valid (fun out e => (out.1 ++ [e.address], out.2 + 1)) 0 ([], 0) table
  let indexed := pass valid (fun out e => (out.1 ++ [out.2], out.2 + symbolLength e)) 0 ([], 0) table
  ⟨counted.1, counted.2, indexed.1, pass valid (fun out e => out ++ [e.symbol]) 0 [] table⟩

structure Image where
  addresses : Nat → Nat
  symsNum : Nat
  index : Nat → Nat
  names : Memory

/- The count follows the addresses and the index the count; beyond and behind are what memory
   holds past the arrays. -/
def load (src : Source) (beyond : Nat → Nat) (behind : Memory) : Image where
  addresses i := ((src.addresses ++ src.symsNum :: src.index)[i]?).getD (beyond i)
  symsNum := src.symsNum
  index i := (src.index[i]?).getD (beyond i)
  names i := ((src.names.flatMap (· ++ [0]))[i]?).getD (behind i)

/- The values color_printk prints; function is where the string of %s starts in the names, and %04d
   takes an int. -/
structure Printed where
  address : Nat
  offset : Int
  function : Nat
  start : Nat

def Between (img : Image) (address i : Nat) : Prop :=
  address > img.addresses i ∧ address ≤ img.addresses (i + 1)

instance (img : Image) (address i : Nat) : Decidable (Between img address i) :=
  inferInstanceAs (Decidable (_ ∧ _))

def search (img : Image) (address : Nat) : Nat → Nat → Nat
  | 0, index => index
  | left + 1, index =>
    if Between img address index then index
    else search img address left (index + 1)

def lookupKallsyms (img : Image) (address : Nat) : Nat × Option Printed :=
  let index := search img address img.symsNum 0
  if index < img.symsNum then
    (0, some ⟨address, toInt32 (address - img.addresses index : Nat), img.index index,
      img.addresses index⟩)
  else (1, none)

def CString (m : Memory) (at_ : Nat) (string : List UInt8) : Prop :=
  (∀ i, ∀ c, string[i]? = some c → m (at_ + i) = c ∧ c ≠ 0) ∧ m (at_ + string.length) = 0

def kept (valid : SymbolEntry → Bool) : Nat → List SymbolEntry → List SymbolEntry
  | _, [] => []
  | lastAddr, e :: table =>
    if ¬ valid e then kept valid lastAddr table
    else if e.address = lastAddr then kept valid lastAddr table
    else e :: kept valid e.address table

theorem pass_eq {σ : Type} (valid : SymbolEntry → Bool) (body : σ → SymbolEntry → σ)
    (lastAddr : Nat) (s : σ) (table : List SymbolEntry) :
    pass valid body lastAddr s table = (kept valid lastAddr table).foldl body s := by
  induction table generalizing lastAddr s with
  | nil => rfl
  | cons e table ih =>
    unfold pass kept
    split
    · exact ih lastAddr s
    · split
      · exact ih lastAddr s
      · exact ih e.address (body s e)

def positions : Nat → List SymbolEntry → List Nat
  | _, [] => []
  | position, e :: es => position :: positions (position + symbolLength e) es

theorem foldl_addresses (es : List SymbolEntry) (out : List Nat) (n : Nat) :
    es.foldl (fun out e => (out.1 ++ [e.address], out.2 + 1)) (out, n) =
      (out ++ es.map SymbolEntry.address, n + es.length) := by
  induction es generalizing out n with
  | nil => simp
  | cons e es ih =>
    rw [List.foldl_cons, ih]
    simp only [List.map_cons, List.length_cons, List.append_assoc, List.singleton_append,
      Prod.mk.injEq, true_and]
    omega

theorem foldl_positions (es : List SymbolEntry) (out : List Nat) (position : Nat) :
    (es.foldl (fun out e => (out.1 ++ [out.2], out.2 + symbolLength e)) (out, position)).1 =
      out ++ positions position es := by
  induction es generalizing out position with
  | nil => simp [positions]
  | cons e es ih =>
    rw [List.foldl_cons, ih]
    simp [positions]

theorem foldl_names (es : List SymbolEntry) (out : List (List UInt8)) :
    es.foldl (fun out e => out ++ [e.symbol]) out = out ++ es.map SymbolEntry.symbol := by
  induction es generalizing out with
  | nil => simp
  | cons e es ih =>
    rw [List.foldl_cons, ih]
    simp

/- The entries of the table that write_src emits. -/
def emitted (table : List SymbolEntry) : List SymbolEntry :=
  kept (symbolValid (addressOf textName table) (addressOf etextName table)) 0 table

theorem writeSrc_eq (table : List SymbolEntry) :
    writeSrc table = ⟨(emitted table).map SymbolEntry.address, (emitted table).length,
      positions 0 (emitted table), (emitted table).map SymbolEntry.symbol⟩ := by
  simp only [writeSrc, pass_eq, foldl_addresses, foldl_positions, foldl_names, emitted,
    List.nil_append, Nat.zero_add]

def Sorted (table : List SymbolEntry) : Prop := table.Pairwise fun a b => a.address ≤ b.address

instance (table : List SymbolEntry) : Decidable (Sorted table) :=
  inferInstanceAs (Decidable (List.Pairwise _ _))

section kept
variable {valid : SymbolEntry → Bool}

theorem kept_above {lastAddr : Nat} {table : List SymbolEntry} (sorted : Sorted table)
    (low : ∀ e ∈ table, lastAddr ≤ e.address) {e : SymbolEntry}
    (member : e ∈ kept valid lastAddr table) : lastAddr < e.address ∧ valid e = true := by
  induction table generalizing lastAddr with
  | nil => cases member
  | cons head table ih =>
    obtain ⟨first, rest⟩ := List.pairwise_cons.mp sorted
    have tail : ∀ e ∈ table, lastAddr ≤ e.address :=
      fun e inside => low e (List.mem_cons_of_mem _ inside)
    have head_low := low head List.mem_cons_self
    unfold kept at member
    split at member
    · exact ih rest tail member
    · rename_i accepted
      split at member
      · exact ih rest tail member
      · rename_i fresh
        rcases List.mem_cons.mp member with rfl | inside
        · exact ⟨by omega, by simpa using accepted⟩
        · have above := ih rest first inside
          exact ⟨by omega, above.2⟩

theorem kept_increasing {lastAddr : Nat} {table : List SymbolEntry} (sorted : Sorted table)
    (low : ∀ e ∈ table, lastAddr ≤ e.address) :
    (kept valid lastAddr table).Pairwise fun a b => a.address < b.address := by
  induction table generalizing lastAddr with
  | nil => exact List.Pairwise.nil
  | cons head table ih =>
    obtain ⟨first, rest⟩ := List.pairwise_cons.mp sorted
    have tail : ∀ e ∈ table, lastAddr ≤ e.address :=
      fun e inside => low e (List.mem_cons_of_mem _ inside)
    unfold kept
    split
    · exact ih rest tail
    · split
      · exact ih rest tail
      · exact List.pairwise_cons.mpr
          ⟨fun e inside => (kept_above rest first inside).1, ih rest first⟩

theorem kept_first {lastAddr : Nat} {table : List SymbolEntry} (sorted : Sorted table)
    (low : ∀ e ∈ table, lastAddr ≤ e.address)
    (by_address : ∀ a b : SymbolEntry, a.address = b.address → valid a = valid b)
    {e : SymbolEntry} (member : e ∈ kept valid lastAddr table) :
    table.find? (fun x => x.address = e.address) = some e := by
  induction table generalizing lastAddr with
  | nil => cases member
  | cons head table ih =>
    obtain ⟨first, rest⟩ := List.pairwise_cons.mp sorted
    have tail : ∀ e ∈ table, lastAddr ≤ e.address :=
      fun e inside => low e (List.mem_cons_of_mem _ inside)
    have later : head.address ≠ e.address →
        table.find? (fun x => x.address = e.address) = some e →
        (head :: table).find? (fun x => x.address = e.address) = some e := by
      intro differs found
      rw [List.find?_cons_of_neg (by simpa using differs)]
      exact found
    unfold kept at member
    split at member
    · rename_i skipped
      have above := kept_above rest tail member
      refine later (fun same => ?_) (ih rest tail member)
      rw [by_address head e same] at skipped
      exact skipped above.2
    · split at member
      · rename_i repeated
        have above := kept_above rest tail member
        exact later (by omega) (ih rest tail member)
      · rcases List.mem_cons.mp member with rfl | inside
        · exact List.find?_cons_of_pos (by simp)
        · have above := kept_above rest first inside
          exact later (by omega) (ih rest first inside)

end kept

theorem string_at {es : List SymbolEntry} {i position : Nat} {e : SymbolEntry}
    (at_ : es[i]? = some e) :
    ∃ before rest, es.flatMap (fun e => e.symbol ++ [0]) = before ++ (e.symbol ++ 0 :: rest) ∧
      (positions position es)[i]? = some (position + before.length) := by
  induction es generalizing i position with
  | nil => cases at_
  | cons head es ih =>
    cases i with
    | zero =>
      cases at_
      exact ⟨[], es.flatMap fun e => e.symbol ++ [0], by simp, by simp [positions]⟩
    | succ i =>
      obtain ⟨before, rest, strings, place⟩ :=
        @ih i (position + symbolLength head) (by simpa using at_)
      refine ⟨head.symbol ++ 0 :: before, rest, ?_, ?_⟩
      · rw [List.flatMap_cons, strings]
        simp
      · rw [positions, List.getElem?_cons_succ, place, symbolLength, List.length_append,
          List.length_cons]
        congr 1
        omega

theorem cstring_of_list {m : Memory} {before string rest : List UInt8}
    (holds : ∀ i, i < (before ++ (string ++ 0 :: rest)).length →
      (before ++ (string ++ 0 :: rest))[i]? = some (m i))
    (no_nul : ∀ c ∈ string, c ≠ 0) : CString m before.length string := by
  constructor
  · intro i c at_
    have inside := (List.getElem?_eq_some_iff.mp at_).1
    have byte := holds (before.length + i) (by simp; omega)
    rw [List.getElem?_append_right (by omega), Nat.add_sub_cancel_left,
      List.getElem?_append_left inside, at_] at byte
    cases byte
    exact ⟨rfl, no_nul _ (List.mem_of_getElem? at_)⟩
  · have byte := holds (before.length + string.length) (by simp)
    rw [List.getElem?_append_right (by omega), Nat.add_sub_cancel_left,
      List.getElem?_append_right (Nat.le_refl _), Nat.sub_self, List.getElem?_cons_zero] at byte
    exact (Option.some.inj byte).symm

section search
variable {img : Image} {address : Nat}

theorem search_found {left index k : Nat} (within : k < left)
    (here : Between img address (index + k)) (earlier : ∀ j < k, ¬ Between img address (index + j)) :
    search img address left index = index + k := by
  induction left generalizing index k with
  | zero => omega
  | succ left ih =>
    unfold search
    cases k with
    | zero => exact if_pos here
    | succ k =>
      have first : ¬ Between img address index := earlier 0 (Nat.succ_pos k)
      rw [if_neg first, @ih (index + 1) k (by omega)]
      · omega
      · have place : index + 1 + k = index + (k + 1) := by omega
        rw [place]
        exact here
      · intro j less
        have place : index + 1 + j = index + (j + 1) := by omega
        rw [place]
        exact earlier (j + 1) (by omega)

theorem search_missing {left index : Nat}
    (never : ∀ j < left, ¬ Between img address (index + j)) :
    search img address left index = index + left := by
  induction left generalizing index with
  | zero => rfl
  | succ left ih =>
    have first : ¬ Between img address index := never 0 (Nat.succ_pos left)
    unfold search
    rw [if_neg first, ih]
    · omega
    · intro j less
      have place : index + 1 + j = index + (j + 1) := by omega
      rw [place]
      exact never (j + 1) (by omega)

end search

/-- A listing of nm -n with the two symbols, its lines few enough for an int. -/
structure Listing (lines : List Line) : Prop where
  formed : ∀ line ∈ lines, line.Formed
  sorted : Sorted (entries lines)
  text : ∃ e ∈ entries lines, e.symbol = textName
  etext : ∃ e ∈ entries lines, e.symbol = etextName
  counted : lines.length < 2 ^ 31

instance (lines : List Line) : Decidable (Listing lines) :=
  decidable_of_iff ((∀ line ∈ lines, line.Formed) ∧ Sorted (entries lines) ∧
      (∃ e ∈ entries lines, e.symbol = textName) ∧ (∃ e ∈ entries lines, e.symbol = etextName) ∧
      lines.length < 2 ^ 31)
    ⟨fun ⟨formed, sorted, text, etext, counted⟩ => ⟨formed, sorted, text, etext, counted⟩,
      fun l => ⟨l.formed, l.sorted, l.text, l.etext, l.counted⟩⟩

theorem kept_length (valid : SymbolEntry → Bool) (lastAddr : Nat) (table : List SymbolEntry) :
    (kept valid lastAddr table).length ≤ table.length := by
  induction table generalizing lastAddr with
  | nil => exact Nat.le_refl 0
  | cons head table ih =>
    unfold kept
    split
    · exact Nat.le_succ_of_le (ih lastAddr)
    · split
      · exact Nat.le_succ_of_le (ih lastAddr)
      · exact Nat.succ_le_succ (ih head.address)

theorem emitted_increasing {table : List SymbolEntry} (sorted : Sorted table) :
    (emitted table).Pairwise fun a b => a.address < b.address :=
  kept_increasing sorted fun e _ => Nat.zero_le e.address

theorem emitted_first {table : List SymbolEntry} (sorted : Sorted table) {e : SymbolEntry}
    (member : e ∈ emitted table) : table.find? (fun x => x.address = e.address) = some e := by
  apply kept_first sorted (fun e _ => Nat.zero_le e.address) ?_ member
  intro a b same
  simp only [symbolValid, same]

section loaded
variable {table : List SymbolEntry} {beyond : Nat → Nat} {behind : Memory}

theorem loaded_address {i : Nat} {e : SymbolEntry} (at_ : (emitted table)[i]? = some e) :
    (load (writeSrc table) beyond behind).addresses i = e.address := by
  have inside := (List.getElem?_eq_some_iff.mp at_).1
  simp only [load, writeSrc_eq]
  rw [List.getElem?_append_left (by simpa using inside), List.getElem?_map, at_]
  rfl

theorem loaded_count : (load (writeSrc table) beyond behind).addresses (emitted table).length =
    (emitted table).length := by
  simp only [load, writeSrc_eq]
  rw [List.getElem?_append_right (by simp)]
  simp

theorem loaded_name {i : Nat} {e : SymbolEntry} (no_nul : ∀ c ∈ e.symbol, c ≠ 0)
    (at_ : (emitted table)[i]? = some e) : CString (load (writeSrc table) beyond behind).names
      ((load (writeSrc table) beyond behind).index i) e.symbol := by
  obtain ⟨before, rest, strings, place⟩ := @string_at (emitted table) i 0 e at_
  simp only [load, writeSrc_eq, place, Nat.zero_add, Option.getD_some]
  rw [List.flatMap_map]
  apply @cstring_of_list _ _ _ rest
  · intro j within
    rw [strings, List.getElem?_eq_getElem within, Option.getD_some]
  · exact no_nul

end loaded

def Covered (src : Source) (a : Nat) : Prop :=
  ∃ first last, src.addresses.head? = some first ∧ src.addresses.getLast? = some last ∧
    first < a ∧ a ≤ last

def kernelStart : Nat := 0xffff800000000000

/-- The symbol a lookup is to name: the first one listed at the greatest emitted address strictly
    below the address. -/
structure Names (listed table : List SymbolEntry) (img : Image) (a : Nat) (p : Printed) : Prop where
  address : p.address = a
  emitted : p.start ∈ (writeSrc table).addresses
  below : p.start < a
  greatest : ∀ s ∈ (writeSrc table).addresses, s < a → s ≤ p.start
  symbol : ∃ e, listed.find? (fun x => x.address = p.start) = some e ∧
    CString img.names p.function e.symbol

section lookup
variable {table : List SymbolEntry} {beyond : Nat → Nat} {behind : Memory} {a : Nat}

theorem emitted_le {table : List SymbolEntry} (sorted : Sorted table) {i j : Nat} (le : i ≤ j)
    (within : j < (emitted table).length) :
    (emitted table)[i].address ≤ (emitted table)[j].address := by
  rcases Nat.eq_or_lt_of_le le with rfl | less
  · exact Nat.le_refl _
  · exact Nat.le_of_lt
      (List.pairwise_iff_getElem.mp (emitted_increasing sorted) i j (by omega) within less)

theorem address_at {i : Nat} (within : i < (emitted table).length) :
    (load (writeSrc table) beyond behind).addresses i = (emitted table)[i].address :=
  loaded_address (List.getElem?_eq_getElem within)

theorem covered_bounds (covered : Covered (writeSrc table) a) :
    ∃ some_entry : 0 < (emitted table).length, (emitted table)[0].address < a ∧
      a ≤ ((emitted table)[(emitted table).length - 1]).address := by
  obtain ⟨first, last, head, tail, low, high⟩ := covered
  rw [writeSrc_eq] at head tail
  dsimp only at head tail
  rw [List.head?_map, Option.map_eq_some_iff] at head
  rw [List.getLast?_map, Option.map_eq_some_iff] at tail
  obtain ⟨e, at_first, rfl⟩ := head
  obtain ⟨f, at_last, rfl⟩ := tail
  rw [List.head?_eq_getElem?] at at_first
  rw [List.getLast?_eq_getElem?] at at_last
  obtain ⟨some_entry, first⟩ := List.getElem?_eq_some_iff.mp at_first
  obtain ⟨_, last⟩ := List.getElem?_eq_some_iff.mp at_last
  refine ⟨some_entry, ?_, ?_⟩
  · rw [first]
    exact low
  · rw [last]
    exact high

theorem around (covered : Covered (writeSrc table) a) :
    ∃ j, ∃ within : j + 1 < (emitted table).length, (emitted table)[j].address < a ∧
      a ≤ (emitted table)[j + 1].address := by
  classical
  obtain ⟨some_entry, low, high⟩ := covered_bounds covered
  have stops : ∃ j, ∃ within : j < (emitted table).length, a ≤ (emitted table)[j].address :=
    ⟨(emitted table).length - 1, by omega, high⟩
  obtain ⟨within, reached⟩ := Nat.find_spec stops
  have positive : Nat.find stops ≠ 0 := by
    intro zero
    simp only [zero] at reached
    omega
  have before := Nat.find_min stops (Nat.sub_one_lt positive)
  have next : Nat.find stops - 1 + 1 = Nat.find stops := by omega
  refine ⟨Nat.find stops - 1, by omega, ?_, ?_⟩
  · by_contra at_or_above
    exact before ⟨by omega, by omega⟩
  · simp only [next]
    exact reached

theorem lookup_covered (sorted : Sorted table) (no_nul : ∀ e ∈ table, ∀ c ∈ e.symbol, c ≠ 0)
    (covered : Covered (writeSrc table) a) :
    ∃ p, lookupKallsyms (load (writeSrc table) beyond behind) a = (0, some p) ∧
      Names table table (load (writeSrc table) beyond behind) a p ∧
      p.offset = toInt32 (a - p.start : Nat) := by
  obtain ⟨j, within, below, reached⟩ := around covered
  have num : (load (writeSrc table) beyond behind).symsNum = (emitted table).length := by
    rw [writeSrc_eq]
    rfl
  have found : search (load (writeSrc table) beyond behind) a (emitted table).length 0 = j := by
    rw [search_found (k := j) (by omega)]
    · exact Nat.zero_add j
    · rw [Nat.zero_add]
      refine ⟨?_, ?_⟩
      · rw [address_at (by omega)]
        exact below
      · rw [address_at within]
        exact reached
    · intro i less stop
      rw [Nat.zero_add] at stop
      have next := stop.2
      rw [address_at (by omega)] at next
      have passed := @emitted_le table sorted (i + 1) j less (by omega)
      omega
  have first := emitted_first sorted (List.getElem_mem (show j < (emitted table).length by omega))
  refine ⟨⟨a, toInt32 (a - (emitted table)[j].address : Nat),
    (load (writeSrc table) beyond behind).index j, (emitted table)[j].address⟩, ?_,
    ⟨rfl, ?_, below, ?_, (emitted table)[j], first, ?_⟩, ?_⟩
  · simp only [lookupKallsyms, num, found]
    rw [if_pos (by omega), address_at (by omega)]
  · rw [writeSrc_eq]
    exact List.mem_map_of_mem (List.getElem_mem _)
  · intro s member less
    rw [writeSrc_eq] at member
    obtain ⟨e, inside, rfl⟩ := List.mem_map.mp member
    obtain ⟨i, at_i, rfl⟩ := List.getElem_of_mem inside
    by_contra above
    have later : j + 1 ≤ i := by
      by_contra not_later
      exact above (emitted_le sorted (by omega) (by omega))
    have far := emitted_le sorted later at_i
    omega
  · exact loaded_name (no_nul _ (List.mem_of_find?_eq_some first))
      (List.getElem?_eq_getElem (by omega))
  · dsimp only

theorem lookup_uncovered (sorted : Sorted table) (counted : table.length < 2 ^ 31) (kernel : kernelStart ≤ a)
    (outside : ¬ Covered (writeSrc table) a) :
    lookupKallsyms (load (writeSrc table) beyond behind) a = (1, none) := by
  have num : (load (writeSrc table) beyond behind).symsNum = (emitted table).length := by
    rw [writeSrc_eq]
    rfl
  have never : ∀ j < (emitted table).length,
      ¬ Between (load (writeSrc table) beyond behind) a (0 + j) := by
    intro j within stop
    rw [Nat.zero_add] at stop
    obtain ⟨above, upto⟩ := stop
    rw [address_at within] at above
    by_cases last : j + 1 = (emitted table).length
    · -- the word behind the last address is the count
      rw [last, loaded_count] at upto
      have few := kept_length
        (symbolValid (addressOf textName table) (addressOf etextName table)) 0 table
      simp only [kernelStart] at kernel
      unfold emitted at upto
      omega
    · have next : j + 1 < (emitted table).length := by omega
      rw [address_at next] at upto
      have first := emitted_le sorted (Nat.zero_le j) within
      have end_ := @emitted_le table sorted (j + 1) ((emitted table).length - 1) (by omega)
        (by omega)
      refine outside ⟨(emitted table)[0].address,
        ((emitted table)[(emitted table).length - 1]).address, ?_, ?_, by omega, by omega⟩
      · rw [writeSrc_eq]
        dsimp only
        rw [List.head?_map, List.head?_eq_getElem?, List.getElem?_eq_getElem (by omega)]
        rfl
      · rw [writeSrc_eq]
        dsimp only
        rw [List.getLast?_map, List.getLast?_eq_getElem?, List.getElem?_eq_getElem (by omega)]
        rfl
  have missed := search_missing never
  simp only [lookupKallsyms, num, missed, Nat.zero_add]
  exact if_neg (Nat.lt_irrefl _)

end lookup

/- An entry between the two symbols is emitted, or one that is listed with its address before. -/
theorem kept_covers {valid : SymbolEntry → Bool} {lastAddr : Nat} {table : List SymbolEntry}
    {e : SymbolEntry} (member : e ∈ table) (accepted : valid e = true)
    (other : e.address ≠ lastAddr) : ∃ k ∈ kept valid lastAddr table, k.address = e.address := by
  induction table generalizing lastAddr with
  | nil => cases member
  | cons head table ih =>
    unfold kept
    rcases List.mem_cons.mp member with rfl | inside
    · rw [if_neg (by simpa using accepted), if_neg other]
      exact ⟨e, List.mem_cons_self, rfl⟩
    · split
      · exact ih inside other
      · split
        · exact ih inside other
        · by_cases same : e.address = head.address
          · exact ⟨head, List.mem_cons_self, same.symm⟩
          · obtain ⟨k, found, address⟩ := ih inside same
            exact ⟨k, List.mem_cons_of_mem _ found, address⟩

/- The addresses of the symbols from _text to _etext; none is emitted for address 0. -/
def textAddresses (table : List SymbolEntry) : List Nat :=
  ((table.filter (symbolValid (addressOf textName table) (addressOf etextName table))).map
    SymbolEntry.address).filter fun s => s ≠ 0

theorem emitted_addresses {table : List SymbolEntry} (sorted : Sorted table) (s : Nat) :
    s ∈ (writeSrc table).addresses ↔ s ∈ textAddresses table := by
  rw [writeSrc_eq]
  simp only [textAddresses, List.mem_map, List.mem_filter, decide_eq_true_eq]
  constructor
  · rintro ⟨e, member, rfl⟩
    have above := kept_above sorted (fun e _ => Nat.zero_le e.address) member
    exact ⟨⟨e, ⟨List.mem_of_find?_eq_some (emitted_first sorted member), above.2⟩, rfl⟩,
      Nat.ne_of_gt above.1⟩
  · rintro ⟨⟨e, ⟨member, accepted⟩, rfl⟩, positive⟩
    exact kept_covers member accepted positive

/-- From each of these symbols to the next one there are less than 2GB. -/
def Near (table : List SymbolEntry) : Prop :=
  ∀ s ∈ textAddresses table, ∀ t ∈ textAddresses table, s < t →
    ∃ u ∈ textAddresses table, s < u ∧ u < s + 2 ^ 31

instance (table : List SymbolEntry) : Decidable (Near table) :=
  inferInstanceAs (Decidable (∀ s ∈ textAddresses table, ∀ t ∈ textAddresses table, s < t →
    ∃ u ∈ textAddresses table, s < u ∧ u < s + 2 ^ 31))

/-- What the table made of a listing is for: each lookup names its symbol and the offset. -/
def RoundTrip (lines : List Line) (beyond : Nat → Nat) (behind : Memory) : Prop :=
  ∃ table, readMap (listed lines) = some table ∧ ∀ a,
    (Covered (writeSrc table) a →
      ∃ p, lookupKallsyms (load (writeSrc table) beyond behind) a = (0, some p) ∧
        Names (entries lines) table (load (writeSrc table) beyond behind) a p ∧
        p.offset = (a - p.start : Nat)) ∧
    (kernelStart ≤ a → ¬ Covered (writeSrc table) a →
      lookupKallsyms (load (writeSrc table) beyond behind) a = (1, none))

/- Addresses of a sorted table from the first to the last that are emitted. -/
theorem covered_between {table : List SymbolEntry} (sorted : Sorted table) {s t a : Nat}
    (first : s ∈ (writeSrc table).addresses) (last : t ∈ (writeSrc table).addresses) (low : s < a)
    (high : a ≤ t) : Covered (writeSrc table) a := by
  rw [writeSrc_eq] at first last ⊢
  obtain ⟨e, member, rfl⟩ := List.mem_map.mp first
  obtain ⟨i, within, rfl⟩ := List.getElem_of_mem member
  obtain ⟨f, member, rfl⟩ := List.mem_map.mp last
  obtain ⟨j, inside, rfl⟩ := List.getElem_of_mem member
  have lowest := emitted_le sorted (Nat.zero_le i) within
  have highest := @emitted_le table sorted j ((emitted table).length - 1) (by omega) (by omega)
  refine ⟨(emitted table)[0].address, ((emitted table)[(emitted table).length - 1]).address, ?_, ?_,
    Nat.lt_of_le_of_lt lowest low, Nat.le_trans high highest⟩
  · dsimp only
    rw [List.head?_map, List.head?_eq_getElem?, List.getElem?_eq_getElem (by omega)]
    rfl
  · dsimp only
    rw [List.getLast?_map, List.getLast?_eq_getElem?, List.getElem?_eq_getElem (by omega)]
    rfl

theorem int_offset {d : Nat} (small : d < 2 ^ 31) : toInt32 d = d :=
  Printk.toInt32_fits (by omega) (by omega)

theorem cut_offset : toInt32 (2 ^ 31 : Nat) ≠ (2 ^ 31 : Nat) := by decide +kernel

section listing
variable {lines : List Line}

theorem entries_names (listing : Listing lines) :
    ∀ e ∈ entries lines, ∀ c ∈ e.symbol, c ≠ 0 := by
  intro e member
  obtain ⟨line, inside, entry⟩ := List.mem_filterMap.mp member
  have formed := listing.formed line inside
  cases line with
  | defined address type name =>
    cases entry
    exact fun c member => (formed.2.2.2.2 c member).2.1
  | undefined type name => cases entry

theorem entries_counted (listing : Listing lines) : (entries lines).length < 2 ^ 31 :=
  Nat.lt_of_le_of_lt (List.length_filterMap_le _ _) listing.counted

end listing

/-- Of a listing that is read whole, every lookup is right where no two neighbours are 2GB apart,
    and only there. -/
theorem lookup_round_trip_iff (lines : List Line) (listing : Listing lines)
    (whole : ∀ line ∈ lines, line.Whole) (beyond : Nat → Nat) (behind : Memory) :
    RoundTrip lines beyond behind ↔ Near (entries lines) := by
  have read := readMap_listed listing.formed whole
  have sorted := listing.sorted
  have named : ∀ a, Covered (writeSrc (entries lines)) a → _ := fun a =>
    @lookup_covered (entries lines) beyond behind a sorted (entries_names listing)
  constructor
  · rintro ⟨table, read', right⟩ s start t last less
    cases read.symm.trans read'
    rw [← emitted_addresses sorted] at start last
    by_contra alone
    have next : ∀ u ∈ (writeSrc (entries lines)).addresses, s < u → s + 2 ^ 31 ≤ u := by
      intro u member above
      by_contra near
      exact alone ⟨u, (emitted_addresses sorted u).mp member, above, Nat.not_le.mp near⟩
    have covered := covered_between sorted start last (Nat.lt_add_of_pos_right (by decide))
      (next t last less)
    obtain ⟨p, found, names, offset⟩ := (right (s + 2 ^ 31)).1 covered
    obtain ⟨p', found', _, cut⟩ := named (s + 2 ^ 31) covered
    cases found.symm.trans found'
    have at_start : p.start = s := by
      have low := names.greatest s start (Nat.lt_add_of_pos_right (by decide))
      by_contra other
      have far := next p.start names.emitted (Nat.lt_of_le_of_ne low (Ne.symm other))
      exact Nat.lt_irrefl _ (Nat.lt_of_lt_of_le names.below far)
    rw [at_start, Nat.add_sub_cancel_left] at offset cut
    exact cut_offset (cut.symm.trans offset)
  · intro near
    refine ⟨entries lines, read, fun a => ⟨fun covered => ?_, fun kernel outside => ?_⟩⟩
    · obtain ⟨p, found, names, cut⟩ := named a covered
      refine ⟨p, found, names, cut.trans (int_offset ?_)⟩
      obtain ⟨_, last, _, tail, _, high⟩ := covered
      have last_emitted := List.mem_of_getLast? tail
      obtain ⟨u, later, above, close⟩ := near p.start ((emitted_addresses sorted _).mp names.emitted)
        last ((emitted_addresses sorted _).mp last_emitted) (Nat.lt_of_lt_of_le names.below high)
      by_contra far
      have beyond_u : u < a := by omega
      have back := names.greatest u ((emitted_addresses sorted u).mpr later) beyond_u
      omega
    · exact lookup_uncovered sorted (entries_counted listing) kernel outside

def fiveLines (last : UInt8) (etext : Nat) : List Line :=
  [.undefined 0x77 (List.replicate 97 0x6b ++ [last]),
   .defined kernelStart 0x54 textName,
   .defined kernelStart 0x74 [0x73],
   .defined (kernelStart + 16) 0x54 [0x66],
   .defined etext 0x54 etextName]

theorem lookup_round_trip_five :
    RoundTrip (fiveLines 0x7a (kernelStart + 64)) (fun _ => 0) (fun _ => 0) ∧
      ¬ RoundTrip (fiveLines 0x7a (kernelStart + 2 ^ 32)) (fun _ => 0) fun _ => 0 :=
  ⟨(lookup_round_trip_iff (fiveLines 0x7a (kernelStart + 64)) (by decide +kernel)
      (by decide +kernel) _ _).mpr (by decide +kernel),
    mt (lookup_round_trip_iff (fiveLines 0x7a (kernelStart + 2 ^ 32)) (by decide +kernel)
      (by decide +kernel) _ _).mp (by decide +kernel)⟩

def lostText : List SymbolEntry :=
  [⟨0xe, 0x66, [0x66, 0x66, 0x66, 0x38] ++ List.replicate 11 0x30⟩,
   ⟨kernelStart, 0x74, [0x73]⟩,
   ⟨kernelStart + 16, 0x54, [0x66]⟩,
   ⟨kernelStart + 64, 0x54, etextName⟩]

/-- A lookup names a symbol that is not of the listing. -/
theorem text_line_lost : Listing (fiveLines 0x65 (kernelStart + 64)) ∧
    ¬ RoundTrip (fiveLines 0x65 (kernelStart + 64)) (fun _ => 0) fun _ => 0 := by
  refine ⟨by decide +kernel, ?_⟩
  rintro ⟨table, read, right⟩
  have made : readMap (listed (fiveLines 0x65 (kernelStart + 64))) = some lostText := by
    decide +kernel
  cases made.symm.trans read
  have emits : (writeSrc lostText).addresses =
      [0xe, kernelStart, kernelStart + 16, kernelStart + 64] := by
    decide +kernel
  have covered : Covered (writeSrc lostText) kernelStart :=
    ⟨0xe, kernelStart + 64, by rw [emits]; rfl, by rw [emits]; rfl, by decide, by decide⟩
  obtain ⟨p, _, names, _⟩ := (right kernelStart).1 covered
  have start : p.start = 0xe := by
    have emitted := names.emitted
    have below := names.below
    simp only [emits, List.mem_cons, List.not_mem_nil, or_false] at emitted
    omega
  obtain ⟨e, found, _⟩ := names.symbol
  rw [start] at found
  have missing : (entries (fiveLines 0x65 (kernelStart + 64))).find?
      (fun x => x.address = 0xe) = none := by
    decide +kernel
  cases missing.symm.trans found

end Kallsyms
