import Q2os.OpenFailure
import Q2os.PrintNumber
import Q2os.StateRuns

/- vsprintf of printk.c, with a pointer that scans the format. -/
namespace Printk
open ByteMemory Fat32
open OpenFailure (strlen)
open StateRuns

/- The locals of vsprintf that outlive a directive, with the memory that %n stores into. The
   format, the buffer and the objects that the arguments point to lie apart. -/
structure Scan where
  fmt : Nat
  /- What lies in buf below str. -/
  str : List UInt8
  /- How many arguments va_arg has fetched. All memory that is read for %s or written for %n
     is reached through them. -/
  taken : Nat
  memory : Memory
  /- The offsets of the bytes of the format that were looked at, the last one first. -/
  seen : List Nat

abbrev Vs (α : Type) := StateT Scan Option α

def isDigit (c : UInt8) : Bool := 0x30 ≤ c && c ≤ 0x39

def asInt (w : BitVec 64) : Int := (w.setWidth 32).toInt
def asUnsignedInt (w : BitVec 64) : BitVec 64 := (w.setWidth 32).setWidth 64

def advance : Vs Unit := modify fun s => { s with fmt := s.fmt + 1 }
def retreat : Vs Unit := modify fun s => { s with fmt := s.fmt - 1 }
def put (text : List UInt8) : Vs Unit := modify fun s => { s with str := s.str ++ text }

/- while(--size > 0) *str++ = c, with the size that is left. -/
def padBefore (c : UInt8) (size : Int) : List UInt8 × Int :=
  if 0 < toInt32 (size - 1) then
    let rest := padBefore c (toInt32 (size - 1))
    (c :: rest.1, rest.2)
  else ([], toInt32 (size - 1))
termination_by (toInt32 (size - 1)).toNat
decreasing_by
  rename_i above
  have high := @Int.bmod_lt (size - 1) (2 ^ 32) (by decide)
  have fits := @toInt32_fits (toInt32 (size - 1) - 1) (by omega) (by unfold toInt32; omega)
  omega

section scanner
variable (format : Nat → UInt8) (args : Nat → BitVec 64)

def peek : Vs UInt8 := fun s => some (format s.fmt, { s with seen := s.fmt :: s.seen })

def vaArg : Vs (BitVec 64) := fun s => some (args s.taken, { s with taken := s.taken + 1 })

def skipAtoi : Nat → Int → Vs Int
  | 0, _ => failure
  | n + 1, i => do
    if isDigit (← peek format) then
      let c ← peek format
      advance
      skipAtoi n (toInt32 (i * 10 + c.toNat - 0x30))
    else return i

/- The jumps back to repeat. -/
def repeatFlags : Nat → Flags → Vs Flags
  | 0, _ => failure
  | n + 1, flags => do
    advance
    let c ← peek format
    if c = 0x2d then repeatFlags n { flags with left := true }
    else if c = 0x2b then repeatFlags n { flags with plus := true }
    else if c = 0x20 then repeatFlags n { flags with space := true }
    else if c = 0x23 then repeatFlags n { flags with special := true }
    else if c = 0x30 then repeatFlags n { flags with zeropad := true }
    else return flags

def fieldWidth (rounds : Nat) (flags : Flags) : Vs (Int × Flags) := do
  if isDigit (← peek format) then
    let width ← skipAtoi format rounds 0
    return (width, flags)
  else if (← peek format) = 0x2a then
    advance
    let width := asInt (← vaArg args)
    if width < 0 then return (toInt32 (-width), { flags with left := true })
    else return (width, flags)
  else return (-1, flags)

def precisionValue (rounds : Nat) : Vs Int := do
  if isDigit (← peek format) then
    skipAtoi format rounds 0
  else if (← peek format) = 0x2a then
    advance
    return asInt (← vaArg args)
  else return -1

def precisionOf (rounds : Nat) : Vs Int := do
  if (← peek format) = 0x2e then
    advance
    let precision ← precisionValue format args rounds
    return if precision < 0 then 0 else precision
  else return -1

def isQualifier (c : UInt8) : Bool := c = 0x68 || c = 0x6c || c = 0x4c || c = 0x5a

def qualifierOf : Vs (Option UInt8) := do
  if isQualifier (← peek format) then
    let qualifier ← peek format
    advance
    return some qualifier
  else return none

def putNumber (num : BitVec 64) (base : Nat) (size precision : Int) (type : Flags) : Vs Unit :=
  match number num base size precision type with
  | some text => put text
  | none => failure

def putChar (flags : Flags) (width : Int) (c : UInt8) : Vs Unit := do
  let before := if flags.left then ([], width) else padBefore blank width
  put (before.1 ++ [c] ++ (padBefore blank before.2).1)

/- The strings are found through the arguments, so they are in the memory that %n writes. -/
def putString (flags : Flags) (width precision : Int) (s : Nat) : Vs Unit := do
  let memory := (← get).memory
  let len := strlen memory s
  let len := if precision < 0 then len else if len > precision then precision else len
  let before := if flags.left then ([], width) else pad blank len width
  put (before.1 ++ slice memory s len.toNat ++ (pad blank len before.2).1)

def storeCount (ip size : Nat) : Vs Unit :=
  modify fun s => { s with memory := setLittle s.memory ip s.str.length size }

def unsignedArg (qualifier : Option UInt8) : Vs (BitVec 64) := do
  let w ← vaArg args
  return if qualifier = some 0x6c then w else asUnsignedInt w

def signedArg (qualifier : Option UInt8) : Vs (BitVec 64) := do
  let w ← vaArg args
  return if qualifier = some 0x6c then w else BitVec.ofInt 64 (asInt w)

/- The second switch, on the character that ends a directive. -/
def conversion (flags : Flags) (width precision : Int) (qualifier : Option UInt8) : Vs Unit := do
  let c ← peek format
  if c = 0x63 then
    let w ← vaArg args
    putChar flags width (w.setWidth 8).toNat.toUInt8
  else if c = 0x73 then
    let w ← vaArg args
    putString flags width precision w.toNat
  else if c = 0x6f then
    putNumber (← unsignedArg args qualifier) 8 width precision flags
  else if c = 0x70 then
    let w ← vaArg args
    if width = -1 then putNumber w 16 16 precision { flags with zeropad := true }
    else putNumber w 16 width precision flags
  else if c = 0x78 then
    putNumber (← unsignedArg args qualifier) 16 width precision { flags with small := true }
  else if c = 0x58 then
    putNumber (← unsignedArg args qualifier) 16 width precision flags
  else if c = 0x64 ∨ c = 0x69 then
    putNumber (← signedArg args qualifier) 10 width precision { flags with sign := true }
  else if c = 0x75 then
    putNumber (← signedArg args qualifier) 10 width precision flags
  else if c = 0x6e then
    let w ← vaArg args
    storeCount w.toNat (if qualifier = some 0x6c then 8 else 4)
  else if c = 0x25 then
    put [0x25]
  else do
    put [0x25]
    if (← peek format) ≠ 0 then put [← peek format]
    else retreat

def directive (rounds : Nat) : Vs Unit := do
  if (← peek format) ≠ 0x25 then
    put [← peek format]
  else do
    let flags ← repeatFlags format rounds Flags.none
    let (width, flags) ← fieldWidth format args rounds flags
    let precision ← precisionOf format args rounds
    let qualifier ← qualifierOf format
    conversion format args flags width precision qualifier

/- for(str = buf; *fmt; fmt++). -/
def scan (rounds : Nat) : Nat → Vs Unit
  | 0 => failure
  | n + 1 => do
    if (← peek format) ≠ 0 then
      directive format args rounds
      advance
      scan rounds n
    else return ()

/- The scan of a format, and the value that vsprintf returns. The 0 behind str is not counted. -/
def vsprintf (rounds : Nat) (memory : Memory) : Option (Int × Scan) := do
  let ended ← scan format args rounds rounds ⟨0, [], 0, memory, []⟩
  return (toInt32 ended.2.str.length, ended.2)

end scanner

structure Terminated (format : Nat → UInt8) (n : Nat) : Prop where
  ended : format n = 0
  solid : ∀ i < n, format i ≠ 0

theorem Terminated.lt {format : Nat → UInt8} {n : Nat} (string : Terminated format n) {i : Nat}
    (within : i ≤ n) (some_ : format i ≠ 0) : i < n :=
  Nat.lt_of_le_of_ne within (fun last => some_ (last ▸ string.ended))

end Printk
