import Q2os.BitFields

/- Programs of single steps that something else may happen between: what holds at every point of a
   run, and what at its end. -/
namespace Outlines
variable {S : Type}

/- What may happen between two steps: nothing, or one thing after another. -/
structure Noise (S : Type) where
  rel : S → S → Prop
  refl : ∀ s, rel s s
  trans : ∀ s t u, rel s t → rel t u → rel s u

def Noise.Stable (noise : Noise S) (P : S → Prop) : Prop := ∀ s t, noise.rel s t → P s → P t

/- Every point of the run of a program has mid, and its end has post. -/
def Outline (noise : Noise S) (mid : S → Prop) : List (S → S) → (S → Prop) → S → Prop
  | [], post, s => ∀ t, noise.rel s t → mid t ∧ post t
  | f :: fs, post, s => ∀ t, noise.rel s t → mid t ∧ Outline noise mid fs post (f t)

section rules
variable {noise : Noise S} {mid post P : S → Prop} {fs gs : List (S → S)} {s t : S}

theorem outline_mid (outline : Outline noise mid fs post s) : mid s := by
  cases fs with
  | nil => exact (outline s (noise.refl s)).1
  | cons f fs => exact (outline s (noise.refl s)).1

theorem outline_noise (outline : Outline noise mid fs post s) (between : noise.rel s t) :
    Outline noise mid fs post t := by
  cases fs with
  | nil => exact fun u later => outline u (noise.trans s t u between later)
  | cons f fs => exact fun u later => outline u (noise.trans s t u between later)

theorem outline_step {f : S → S} (outline : Outline noise mid (f :: fs) post s) :
    Outline noise mid fs post (f s) := (outline s (noise.refl s)).2

theorem outline_end (outline : Outline noise mid [] post s) : post s :=
  (outline s (noise.refl s)).2

theorem outline_cons {f : S → S} (stable : noise.Stable P) (covers : ∀ s, P s → mid s)
    (holds : P s) (next : ∀ t, P t → Outline noise mid fs post (f t)) :
    Outline noise mid (f :: fs) post s := by
  intro t between
  have there := stable s t between holds
  exact ⟨covers t there, next t there⟩

theorem outline_nil (stable : noise.Stable P) (covers : ∀ s, P s → mid s ∧ post s) (holds : P s) :
    Outline noise mid [] post s :=
  fun t between => covers t (stable s t between holds)

end rules

end Outlines

/- The lines of the I/O APIC and the interrupts between processors: how drivers register for them,
   and what a signal comes to, also in the middle of a registration. -/
namespace InterruptRouting
open BitFields Outlines

structure RetEntry where
  vector : BitVec 8
  deliver_mode : BitVec 3
  dest_mode : BitVec 1
  deliver_status : BitVec 1
  polarity : BitVec 1
  irr : BitVec 1
  trigger : BitVec 1
  mask : BitVec 1
  phy_dest : BitVec 4

def RetEntry.layout (e : RetEntry) : Layout 64 where
  fields := [⟨0, e.vector⟩, ⟨8, e.deliver_mode⟩, ⟨11, e.dest_mode⟩, ⟨12, e.deliver_status⟩,
    ⟨13, e.polarity⟩, ⟨14, e.irr⟩, ⟨15, e.trigger⟩, ⟨16, e.mask⟩, ⟨56, e.phy_dest⟩]
  apart := by simp [Field.Apart]
  within := by simp [Field.Within]

def RetEntry.word (e : RetEntry) : BitVec 64 := e.layout.word

/- The entry that the drivers fill in: fixed delivery to the first processor, edge, high, masked. -/
def driverEntry (vector : BitVec 8) : RetEntry where
  vector := vector
  deliver_mode := 0
  dest_mode := 0
  deliver_status := 0
  polarity := 0
  irr := 0
  trigger := 0
  mask := 1
  phy_dest := 0

structure IoApic where
  index : BitVec 8
  register : BitVec 8 → BitVec 32

/- The bits that only the device itself changes: delivery status and remote IRR of an entry. -/
def statusBits (i : BitVec 8) : BitVec 32 :=
  if 0x10 ≤ i.toNat ∧ i.toNat % 2 = 0 then 0x5000 else 0

def IoApic.data (d : IoApic) : BitVec 32 := d.register d.index

def IoApic.write (d : IoApic) (w : BitVec 32) : IoApic :=
  let kept := d.data &&& statusBits d.index
  { d with register := Function.update d.register d.index (kept ||| (w &&& ~~~statusBits d.index)) }

/- What the acknowledgement of a controller is: all drivers have the one for edges. -/
inductive Ack where
  | edge
  | level

structure IrqDesc (H : Type) where
  controller : Option Ack
  irq_name : String
  parameter : BitVec 64
  handler : Option H
  flags : BitVec 64

def IrqDesc.zero {H : Type} : IrqDesc H := ⟨none, "", 0, none, 0⟩

/- The device and the tables, with the value that ioapic_rte_read and ioapic_rte_write work on. -/
structure Apic (H : Type) where
  device : IoApic
  value : BitVec 64
  interrupt_desc : Nat → IrqDesc H
  SMP_IPI_desc : Nat → IrqDesc H

variable {H : Type}

namespace Apic

def select (i : BitVec 8) (p : Apic H) : Apic H := { p with device := { p.device with index := i } }

def setValue (f : BitVec 64 → BitVec 64) (p : Apic H) : Apic H := { p with value := f p.value }

def readData (f : BitVec 64 → BitVec 32 → BitVec 64) (p : Apic H) : Apic H :=
  { p with value := f p.value p.device.data }

def writeData (p : Apic H) : Apic H :=
  { p with device := p.device.write (p.value.setWidth 32) }

def setDesc (i : Nat) (f : IrqDesc H → IrqDesc H) (p : Apic H) : Apic H :=
  { p with interrupt_desc := Function.update p.interrupt_desc i (f (p.interrupt_desc i)) }

def setIPI (i : Nat) (f : IrqDesc H → IrqDesc H) (p : Apic H) : Apic H :=
  { p with SMP_IPI_desc := Function.update p.SMP_IPI_desc i (f (p.SMP_IPI_desc i)) }

end Apic
open Apic

/- The functions of the kernel as the single steps that they take. -/
def rteIndex (irq : BitVec 64) : BitVec 8 := ((irq - 32) * 2 + 0x10).setWidth 8

def rteRead (index : BitVec 8) : List (Apic H → Apic H) :=
  [select (index + 1), readData fun _ w => w.setWidth 64 <<< 32, select index,
    readData fun ret w => ret ||| w.setWidth 64]

def rteWrite (index : BitVec 8) : List (Apic H → Apic H) :=
  [select index, writeData, setValue (· >>> 32), select (index + 1), writeData]

def ioapicEnable (irq : BitVec 64) : List (Apic H → Apic H) :=
  rteRead (rteIndex irq) ++ [setValue (· &&& ~~~0x10000)] ++ rteWrite (rteIndex irq)

def ioapicDisable (irq : BitVec 64) : List (Apic H → Apic H) :=
  rteRead (rteIndex irq) ++ [setValue (· ||| 0x10000)] ++ rteWrite (rteIndex irq)

def ioapicInstall (irq arg : BitVec 64) : List (Apic H → Apic H) :=
  [setValue fun _ => arg] ++ rteWrite (rteIndex irq)

def ioapicUninstall (irq : BitVec 64) : List (Apic H → Apic H) :=
  [setValue fun _ => 0x10000] ++ rteWrite (rteIndex irq)

def registerIrq (irq arg : BitVec 64) (handler : H) (parameter : BitVec 64) (irq_name : String) :
    List (Apic H → Apic H) :=
  let i := (irq - 32).toNat
  [setDesc i ({ · with controller := some .edge }), setDesc i ({ · with irq_name }),
    setDesc i ({ · with parameter }), setDesc i ({ · with flags := 0 }),
    setDesc i ({ · with handler := some handler })] ++ ioapicInstall irq arg ++ ioapicEnable irq

def unregisterIrq (irq : BitVec 64) : List (Apic H → Apic H) :=
  let i := (irq - 32).toNat
  ioapicDisable irq ++ ioapicUninstall irq ++
    [setDesc i ({ · with controller := none }), setDesc i ({ · with irq_name := "" }),
      setDesc i ({ · with parameter := 0 }), setDesc i ({ · with flags := 0 }),
      setDesc i ({ · with handler := none })]

def registerIPI (irq : BitVec 64) (handler : H) (parameter : BitVec 64) (irq_name : String) :
    List (Apic H → Apic H) :=
  let i := (irq - 200).toNat
  [setIPI i ({ · with controller := none }), setIPI i ({ · with irq_name }),
    setIPI i ({ · with parameter }), setIPI i ({ · with flags := 0 }),
    setIPI i ({ · with handler := some handler })]

/- IOAPIC_init, and the tables when they have been cleared. -/
def ioapicInit : List (Apic H → Apic H) :=
  [select 0, setValue fun _ => 0x0f000000, writeData, select 1] ++
    (List.range 24).flatMap fun n =>
      [setValue fun _ => 0x10020 + BitVec.ofNat 64 n] ++ rteWrite (BitVec.ofNat 8 (0x10 + 2 * n))

def start (device : IoApic) : Apic H :=
  ioapicInit.foldl (fun p f => f p) ⟨device, 0, fun _ => .zero, fun _ => .zero⟩

inductive Act (H : Type) where
  | call (handler : H) (nr parameter : BitVec 64)
  | eoi
  | eoiAddress (irq : BitVec 64)

def Ack.acts (nr : BitVec 64) : Ack → List (Act H)
  | .edge => [.eoi]
  | .level => [.eoi, .eoiAddress nr]

def IrqDesc.calls (d : IrqDesc H) (nr : BitVec 64) : List (Act H) :=
  (d.handler.map fun h => Act.call h nr d.parameter).toList

def doIRQ (p : Apic H) (nr : BitVec 64) : List (Act H) :=
  if nr &&& 0x80 = 0 then
    let irq := p.interrupt_desc (nr - 32).toNat
    irq.calls nr ++ (irq.controller.map (Ack.acts nr)).getD [] ++ [.eoi]
  else
    let irq := p.SMP_IPI_desc (nr - 200).toNat
    .eoi :: irq.calls nr

/- A signal on a pin of the I/O APIC: the processor that is interrupted, and what it does. -/
def low (p : Apic H) (pin : Nat) : BitVec 32 := p.device.register (BitVec.ofNat 8 (0x10 + 2 * pin))

def high (p : Apic H) (pin : Nat) : BitVec 32 := p.device.register (BitVec.ofNat 8 (0x11 + 2 * pin))

def signal (p : Apic H) (pin : Nat) : Option (BitVec 4 × List (Act H)) :=
  if (low p pin).getLsbD 16 then none
  else some ((high p pin).extractLsb' 24 4, doIRQ p (((low p pin).setWidth 8).setWidth 64))

/- What the drivers have asked for: the handlers of the pins, and of the other interrupts. -/
structure Route (H : Type) where
  handler : H
  parameter : BitVec 64
  cpu : BitVec 4

structure Routes (H : Type) where
  pin : Nat → Option (Route H)
  ipi : Nat → Option (H × BitVec 64)

namespace Routes

def serve (r : Routes H) (pin : Nat) : Option (BitVec 4 × List (Act H)) :=
  (r.pin pin).map fun route =>
    (route.cpu, [.call route.handler (BitVec.ofNat 64 (32 + pin)) route.parameter, .eoi, .eoi])

def serveIPI (r : Routes H) (n : Nat) : List (Act H) :=
  .eoi :: ((r.ipi n).map fun route => Act.call route.1 (BitVec.ofNat 64 (200 + n)) route.2).toList

structure Served (r : Routes H) (p : Apic H) : Prop where
  pin : ∀ i < 24, signal p i = r.serve i
  ipi : ∀ n < 10, doIRQ p (BitVec.ofNat 64 (200 + n)) = r.serveIPI n

end Routes

/- The calls of drivers, each with the step that it takes effect by. -/
inductive Call (H : Type) where
  | register (pin : Nat) (entry : RetEntry) (handler : H) (parameter : BitVec 64)
      (irq_name : String)
  | unregister (pin : Nat)
  | registerIPI (n : Nat) (handler : H) (parameter : BitVec 64) (irq_name : String)

def irqOf (pin : Nat) : BitVec 64 := BitVec.ofNat 64 (32 + pin)

def ipiOf (n : Nat) : BitVec 64 := BitVec.ofNat 64 (200 + n)

namespace Call

def steps : Call H → List (Apic H → Apic H)
  | register pin entry handler parameter irq_name =>
    registerIrq (irqOf pin) entry.word handler parameter irq_name
  | unregister pin => unregisterIrq (irqOf pin)
  | registerIPI n handler parameter irq_name => InterruptRouting.registerIPI (ipiOf n) handler
      parameter irq_name

def commit : Call H → Apic H → Apic H
  | registerIPI n handler _ _ =>
    setIPI (ipiOf n - 200).toNat ({ · with handler := some handler })
  | _ => writeData

def before : Call H → Nat
  | register _ _ _ _ _ => 17
  | unregister _ => 6
  | registerIPI _ _ _ _ => 4

def first (c : Call H) : List (Apic H → Apic H) := c.steps.take c.before

def rest (c : Call H) : List (Apic H → Apic H) := c.steps.drop (c.before + 1)

def apply : Call H → Routes H → Routes H
  | register pin entry handler parameter _, r =>
    { r with pin := Function.update r.pin pin (some ⟨handler, parameter, entry.phy_dest⟩) }
  | unregister pin, r => { r with pin := Function.update r.pin pin none }
  | registerIPI n handler parameter _, r =>
    { r with ipi := Function.update r.ipi n (some (handler, parameter)) }

/- How the drivers call: with a masked entry for the vector of the line, when it has no handler. -/
def Allowed (r : Routes H) : Call H → Prop
  | register pin entry _ _ _ => pin < 24 ∧ r.pin pin = none ∧ entry.mask = 1 ∧
      entry.vector = BitVec.ofNat 8 (32 + pin)
  | unregister pin => pin < 24 ∧ r.pin pin ≠ none
  | registerIPI n _ _ _ => n < 10 ∧ r.ipi n = none

end Call

example : Call.Allowed ⟨fun _ => none, fun _ => none⟩
    (.register 1 (driverEntry 0x21) () 0 "ps/2 keyboard") := ⟨by decide, rfl, rfl, rfl⟩

/- The status of an entry changes at any time. -/
def deviceNoise (H : Type) : Noise (Apic H) where
  rel p q := q = { p with device := q.device } ∧ q.device.index = p.device.index ∧
    ∀ i, q.device.register i &&& ~~~statusBits i = p.device.register i &&& ~~~statusBits i
  refl p := ⟨rfl, rfl, fun _ => rfl⟩
  trans p q t first second := by
    obtain ⟨tables, index, register⟩ := first
    obtain ⟨tables', index', register'⟩ := second
    refine ⟨?_, index'.trans index, fun i => (register' i).trans (register i)⟩
    rw [tables', tables]

/- Where a processor is between calls or in one of them, with what has taken effect so far. -/
inductive Stage (H : Type) where
  | idle
  | before (c : Call H) (todo : List (Apic H → Apic H))
  | after (todo : List (Apic H → Apic H))

inductive Visits : Routes H → Stage H → Apic H → Prop where
  | start (device : IoApic) :
      Visits ⟨fun _ => none, fun _ => none⟩ .idle (InterruptRouting.start device)
  | device {r : Routes H} {stage : Stage H} {p q : Apic H} :
      Visits r stage p → (deviceNoise H).rel p q → Visits r stage q
  | call {r : Routes H} {p : Apic H} (c : Call H) :
      Visits r .idle p → c.Allowed r → Visits r (.before c c.first) p
  | step {r : Routes H} {c : Call H} {f : Apic H → Apic H} {fs : List (Apic H → Apic H)}
      {p : Apic H} : Visits r (.before c (f :: fs)) p → Visits r (.before c fs) (f p)
  | commit {r : Routes H} {c : Call H} {p : Apic H} :
      Visits r (.before c []) p → Visits (c.apply r) (.after c.rest) (c.commit p)
  | follow {r : Routes H} {f : Apic H → Apic H} {fs : List (Apic H → Apic H)} {p : Apic H} :
      Visits r (.after (f :: fs)) p → Visits r (.after fs) (f p)
  | finish {r : Routes H} {p : Apic H} : Visits r (.after []) p → Visits r .idle p

section places
variable {pin i : Nat}

theorem irqOf_index (small : pin < 24) : (irqOf pin - 32).toNat = pin := by
  simp only [irqOf, BitVec.toNat_sub, BitVec.toNat_ofNat]
  simp
  omega

theorem ipiOf_index (small : pin < 10) : (ipiOf pin - 200).toNat = pin := by
  simp only [ipiOf, BitVec.toNat_sub, BitVec.toNat_ofNat]
  simp
  omega

theorem rteIndex_low (small : pin < 24) :
    rteIndex (irqOf pin) = BitVec.ofNat 8 (0x10 + 2 * pin) := by
  apply BitVec.eq_of_toNat_eq
  simp only [rteIndex, BitVec.toNat_setWidth, BitVec.toNat_add, BitVec.toNat_mul,
    irqOf_index small]
  simp
  omega

theorem rteIndex_high (pin : Nat) :
    BitVec.ofNat 8 (0x10 + 2 * pin) + 1 = BitVec.ofNat 8 (0x11 + 2 * pin) := by
  apply BitVec.eq_of_toNat_eq
  simp
  omega

theorem statusBits_low (small : pin < 24) :
    statusBits (BitVec.ofNat 8 (0x10 + 2 * pin)) = 0x5000 := by
  have place : (BitVec.ofNat 8 (0x10 + 2 * pin)).toNat = 0x10 + 2 * pin := by
    rw [BitVec.toNat_ofNat]
    omega
  rw [statusBits, place, if_pos (by omega)]

theorem statusBits_high (small : pin < 24) : statusBits (BitVec.ofNat 8 (0x11 + 2 * pin)) = 0 := by
  have place : (BitVec.ofNat 8 (0x11 + 2 * pin)).toNat = 0x11 + 2 * pin := by
    rw [BitVec.toNat_ofNat]
    omega
  rw [statusBits, place, if_neg (by omega)]

theorem place_ne {a b : Nat} (first : a < 256) (second : b < 256) (other : a ≠ b) :
    BitVec.ofNat 8 a ≠ BitVec.ofNat 8 b := by
  intro same
  have nat := congrArg BitVec.toNat same
  simp only [BitVec.toNat_ofNat] at nat
  omega

end places

def clean (w : BitVec 32) : BitVec 32 := w &&& ~~~0x5000

def Fits (pin : Nat) (desc : IrqDesc H) (low high : BitVec 32) : Option (Route H) → Prop
  | none => low.getLsbD 16 = true
  | some route => low.getLsbD 16 = false ∧ low.setWidth 8 = BitVec.ofNat 8 (32 + pin) ∧
      high.extractLsb' 24 4 = route.cpu ∧ desc.handler = some route.handler ∧
      desc.parameter = route.parameter ∧ desc.controller = some .edge

def PinFits (r : Routes H) (p : Apic H) (i : Nat) : Prop :=
  Fits i (p.interrupt_desc i) (clean (low p i)) (high p i) (r.pin i)

def IpiFits (r : Routes H) (p : Apic H) (n : Nat) : Prop :=
  (p.SMP_IPI_desc n).handler = (r.ipi n).map Prod.fst ∧
    ∀ route, r.ipi n = some route → (p.SMP_IPI_desc n).parameter = route.2

structure AllFit (r : Routes H) (p : Apic H) : Prop where
  pin : ∀ i < 24, PinFits r p i
  ipi : ∀ n < 10, IpiFits r p n

section served
variable {r : Routes H} {p : Apic H}

theorem clean_mask (w : BitVec 32) : (clean w).getLsbD 16 = w.getLsbD 16 := by
  simp [clean]

theorem clean_vector (w : BitVec 32) : (clean w).setWidth 8 = w.setWidth 8 := by
  have ones : (~~~(0x5000 : BitVec 32)).setWidth 8 = BitVec.allOnes 8 := by decide
  rw [clean, BitVec.setWidth_and, ones, BitVec.and_allOnes]

theorem pin_nr : ∀ i < 24, (BitVec.ofNat 64 (32 + i)) &&& 0x80 = 0 ∧
    (BitVec.ofNat 8 (32 + i)).setWidth 64 = BitVec.ofNat 64 (32 + i) := by decide

theorem ipi_nr : ∀ n < 10, (BitVec.ofNat 64 (200 + n)) &&& 0x80 ≠ 0 := by decide

theorem served_of_fits (fits : AllFit r p) : r.Served p where
  pin i small := by
    have pin := fits.pin i small
    have ⟨low_nr, nr⟩ := pin_nr i small
    have index : (BitVec.ofNat 64 (32 + i) - 32).toNat = i := irqOf_index small
    cases route : r.pin i with
    | none =>
      rw [PinFits, route, Fits, clean_mask] at pin
      simp [signal, Routes.serve, route, pin]
    | some line =>
      simp only [PinFits, route, Fits, clean_mask, clean_vector] at pin
      obtain ⟨unmasked, vector, cpu, handler, parameter, controller⟩ := pin
      have acts : doIRQ p (BitVec.ofNat 64 (32 + i)) =
          [.call line.handler (BitVec.ofNat 64 (32 + i)) line.parameter, .eoi, .eoi] := by
        rw [doIRQ, if_pos low_nr, index]
        simp [IrqDesc.calls, handler, parameter, controller, Ack.acts]
      rw [signal, if_neg (by rw [unmasked]; decide), vector, nr, acts, cpu, Routes.serve, route]
      rfl
  ipi n small := by
    obtain ⟨handler, parameter⟩ := fits.ipi n small
    have index : (BitVec.ofNat 64 (200 + n) - 200).toNat = n := ipiOf_index small
    rw [doIRQ, if_neg (ipi_nr n small), index]
    cases route : r.ipi n with
    | none => simp [IrqDesc.calls, Routes.serveIPI, route, handler]
    | some line => simp [IrqDesc.calls, Routes.serveIPI, route, handler, parameter line route]

end served

structure Knowledge (H : Type) where
  desc : IrqDesc H → Prop
  low : BitVec 32 → Prop
  high : BitVec 32 → Prop
  index : BitVec 8 → Prop
  value : BitVec 64 → Prop

structure Knows (r : Routes H) (pin : Nat) (k : Knowledge H) (p : Apic H) : Prop where
  desc : k.desc (p.interrupt_desc pin)
  low : k.low (clean (low p pin))
  high : k.high (high p pin)
  index : k.index p.device.index
  value : k.value p.value
  others : ∀ i < 24, i ≠ pin → PinFits r p i
  ipis : ∀ n < 10, IpiFits r p n

section knows
variable {r : Routes H} {pin : Nat} {k : Knowledge H} {p q : Apic H}

theorem noise_low (small : pin < 24) (noise : (deviceNoise H).rel p q) :
    clean (low q pin) = clean (low p pin) := by
  have same := noise.2.2 (BitVec.ofNat 8 (0x10 + 2 * pin))
  rwa [statusBits_low small] at same

theorem and_not_zero (w : BitVec 32) : w &&& ~~~0 = w := by
  have ones : ~~~(0 : BitVec 32) = BitVec.allOnes 32 := by decide
  rw [ones, BitVec.and_allOnes]

theorem noise_high (small : pin < 24) (noise : (deviceNoise H).rel p q) :
    high q pin = high p pin := by
  have same := noise.2.2 (BitVec.ofNat 8 (0x11 + 2 * pin))
  rwa [statusBits_high small, and_not_zero, and_not_zero] at same

theorem noise_pinFits {i : Nat} (small : i < 24) (noise : (deviceNoise H).rel p q)
    (fits : PinFits r p i) : PinFits r q i := by
  have desc : q.interrupt_desc = p.interrupt_desc := by rw [noise.1]
  rw [PinFits, noise_low small noise, noise_high small noise, desc]
  exact fits

theorem noise_ipiFits {n : Nat} (noise : (deviceNoise H).rel p q) (fits : IpiFits r p n) :
    IpiFits r q n := by
  have desc : q.SMP_IPI_desc = p.SMP_IPI_desc := by rw [noise.1]
  rw [IpiFits, desc]
  exact fits

theorem allFit_stable : (deviceNoise H).Stable (AllFit r) :=
  fun _ _ noise fits => ⟨fun i small => noise_pinFits small noise (fits.pin i small),
    fun n small => noise_ipiFits noise (fits.ipi n small)⟩

theorem knows_stable (small : pin < 24) : (deviceNoise H).Stable (Knows r pin k) := by
  intro p q noise knows
  obtain ⟨tables, index, -⟩ := id noise
  constructor
  · rw [tables]
    exact knows.desc
  · rw [noise_low small noise]
    exact knows.low
  · rw [noise_high small noise]
    exact knows.high
  · rw [index]
    exact knows.index
  · rw [tables]
    exact knows.value
  · exact fun i within other => noise_pinFits within noise (knows.others i within other)
  · exact fun n within => noise_ipiFits noise (knows.ipis n within)

theorem knows_all (knows : Knows r pin k p)
    (fits : ∀ d l h, k.desc d → k.low l → k.high h → Fits pin d l h (r.pin pin)) : AllFit r p where
  pin i small := by
    by_cases same : i = pin
    · subst same
      exact fits _ _ _ knows.desc knows.low knows.high
    · exact knows.others i small same
  ipi := knows.ipis

theorem write_low (small : pin < 24) (at_low : p.device.index = BitVec.ofNat 8 (0x10 + 2 * pin)) :
    clean (low (writeData p) pin) = clean (p.value.setWidth 32) := by
  have written : low (writeData p) pin =
      (p.device.data &&& 0x5000) ||| (p.value.setWidth 32 &&& ~~~0x5000) := by
    rw [low, writeData, IoApic.write, at_low, statusBits_low small]
    exact Function.update_self ..
  rw [written, clean, clean, BitVec.and_or_distrib_right]
  simp [BitVec.and_assoc]

theorem write_high (small : pin < 24) (at_high : p.device.index = BitVec.ofNat 8 (0x11 + 2 * pin)) :
    high (writeData p) pin = p.value.setWidth 32 := by
  have written : high (writeData p) pin =
      (p.device.data &&& 0) ||| (p.value.setWidth 32 &&& ~~~0) := by
    rw [high, writeData, IoApic.write, at_high, statusBits_high small]
    exact Function.update_self ..
  rw [written, and_not_zero]
  simp

theorem write_apart {i : BitVec 8} (other : i ≠ p.device.index) :
    (writeData p).device.register i = p.device.register i := by
  rw [writeData, IoApic.write]
  exact Function.update_of_ne other _ _

theorem low_apart {i : Nat} (other : p.device.index ≠ BitVec.ofNat 8 (0x10 + 2 * i)) :
    low (writeData p) i = low p i := write_apart other.symm

theorem high_apart {i : Nat} (other : p.device.index ≠ BitVec.ofNat 8 (0x11 + 2 * i)) :
    high (writeData p) i = high p i := write_apart other.symm

end knows

section rules
variable {r : Routes H} {pin : Nat} {k k' : Knowledge H} {mid post : Apic H → Prop}
  {fs : List (Apic H → Apic H)}

/- What is known leads through the rest of a program. -/
def Leads (mid post : Apic H → Prop) (r : Routes H) (pin : Nat) (fs : List (Apic H → Apic H))
    (k : Knowledge H) : Prop := ∀ p, Knows r pin k p → Outline (deviceNoise H) mid fs post p

theorem leads_cons {f : Apic H → Apic H} (small : pin < 24)
    (covers : ∀ p, Knows r pin k p → mid p) (step : ∀ p, Knows r pin k p → Knows r pin k' (f p))
    (next : Leads mid post r pin fs k') : Leads mid post r pin (f :: fs) k :=
  fun _ knows => outline_cons (knows_stable small) covers knows fun t there => next _ (step t there)

theorem knows_select {p : Apic H} (i : BitVec 8) (knows : Knows r pin k p) :
    Knows r pin { k with index := (· = i) } (select i p) :=
  ⟨knows.desc, knows.low, knows.high, rfl, knows.value, knows.others, knows.ipis⟩

theorem knows_setValue {p : Apic H} (f : BitVec 64 → BitVec 64) (knows : Knows r pin k p) :
    Knows r pin { k with value := fun v => ∃ v₀, k.value v₀ ∧ v = f v₀ } (setValue f p) :=
  ⟨knows.desc, knows.low, knows.high, knows.index, ⟨_, knows.value, rfl⟩, knows.others, knows.ipis⟩

theorem knows_setDesc {p : Apic H} (small : pin < 24) (f : IrqDesc H → IrqDesc H)
    (knows : Knows r pin k p) :
    Knows r pin { k with desc := fun d => ∃ d₀, k.desc d₀ ∧ d = f d₀ }
      (setDesc (irqOf pin - 32).toNat f p) := by
  rw [irqOf_index small]
  refine ⟨⟨_, knows.desc, ?_⟩, knows.low, knows.high, knows.index, knows.value,
    fun i within other => ?_, knows.ipis⟩
  · simp [setDesc]
  · have same : (setDesc pin f p).interrupt_desc i = p.interrupt_desc i :=
      Function.update_of_ne other _ _
    rw [PinFits, same]
    exact knows.others i within other

theorem knows_readHigh {p : Apic H} (f : BitVec 64 → BitVec 32 → BitVec 64)
    (at_high : ∀ i, k.index i → i = BitVec.ofNat 8 (0x11 + 2 * pin)) (knows : Knows r pin k p) :
    Knows r pin { k with value := fun v => ∃ v₀ h, k.value v₀ ∧ k.high h ∧ v = f v₀ h }
      (readData f p) := by
  refine ⟨knows.desc, knows.low, knows.high, knows.index, ⟨_, _, knows.value, knows.high, ?_⟩,
    knows.others, knows.ipis⟩
  rw [readData, IoApic.data, at_high _ knows.index, high]

theorem knows_readLow {p : Apic H} (f : BitVec 64 → BitVec 32 → BitVec 64)
    (at_low : ∀ i, k.index i → i = BitVec.ofNat 8 (0x10 + 2 * pin)) (knows : Knows r pin k p) :
    Knows r pin { k with value := fun v => ∃ v₀ l, k.value v₀ ∧ k.low (clean l) ∧ v = f v₀ l }
      (readData f p) := by
  refine ⟨knows.desc, knows.low, knows.high, knows.index, ⟨_, _, knows.value, knows.low, ?_⟩,
    knows.others, knows.ipis⟩
  rw [readData, IoApic.data, at_low _ knows.index, low]

theorem knows_writeLow {p : Apic H} (small : pin < 24)
    (at_low : ∀ i, k.index i → i = BitVec.ofNat 8 (0x10 + 2 * pin)) (knows : Knows r pin k p) :
    Knows r pin { k with low := fun l => ∃ v, k.value v ∧ l = clean (v.setWidth 32) }
      (writeData p) := by
  have index := at_low _ knows.index
  refine ⟨knows.desc, ⟨_, knows.value, write_low small index⟩, ?_, knows.index, knows.value,
    fun i within other => ?_, knows.ipis⟩
  · rw [high_apart (by rw [index]; exact place_ne (by omega) (by omega) (by omega))]
    exact knows.high
  · rw [PinFits, low_apart (by rw [index]; exact place_ne (by omega) (by omega) (by omega)),
      high_apart (by rw [index]; exact place_ne (by omega) (by omega) (by omega))]
    exact knows.others i within other

theorem knows_writeHigh {p : Apic H} (small : pin < 24)
    (at_high : ∀ i, k.index i → i = BitVec.ofNat 8 (0x11 + 2 * pin)) (knows : Knows r pin k p) :
    Knows r pin { k with high := fun h => ∃ v, k.value v ∧ h = v.setWidth 32 } (writeData p) := by
  have index := at_high _ knows.index
  refine ⟨knows.desc, ?_, ⟨_, knows.value, write_high small index⟩, knows.index, knows.value,
    fun i within other => ?_, knows.ipis⟩
  · rw [low_apart (by rw [index]; exact place_ne (by omega) (by omega) (by omega))]
    exact knows.low
  · rw [PinFits, low_apart (by rw [index]; exact place_ne (by omega) (by omega) (by omega)),
      high_apart (by rw [index]; exact place_ne (by omega) (by omega) (by omega))]
    exact knows.others i within other

end rules

section bits

theorem word_low (h l : BitVec 32) :
    (h.setWidth 64 <<< 32 ||| l.setWidth 64).setWidth 32 = l := by
  ext i inside
  simp

theorem word_high (h l : BitVec 32) :
    ((h.setWidth 64 <<< 32 ||| l.setWidth 64) >>> 32).setWidth 32 = h := by
  ext i inside
  have shifted : 32 + i < 64 ∧ ¬ 32 + i < 32 := by omega
  simp [shifted, inside]

theorem shift_mask (x : BitVec 64) : (x &&& ~~~0x10000) >>> 32 = x >>> 32 := by
  have ones : (~~~(0x10000 : BitVec 64)) >>> 32 = BitVec.allOnes 64 >>> 32 := by decide
  rw [BitVec.ushiftRight_and_distrib, ones, ← BitVec.ushiftRight_and_distrib, BitVec.and_allOnes]

theorem low_mask (x : BitVec 64) :
    (x &&& ~~~0x10000).setWidth 32 = x.setWidth 32 &&& ~~~0x10000 := by
  have mask : (~~~(0x10000 : BitVec 64)).setWidth 32 = ~~~0x10000 := by decide
  rw [BitVec.setWidth_and, mask]

theorem masked_bit (w : BitVec 32) : (clean (w &&& ~~~0x10000)).getLsbD 16 = false := by
  rw [clean_mask]
  simp

theorem masked_vector (w : BitVec 32) :
    (clean (w &&& ~~~0x10000)).setWidth 8 = (clean w).setWidth 8 := by
  have ones : (~~~(0x10000 : BitVec 32)).setWidth 8 = BitVec.allOnes 8 := by decide
  rw [clean_vector, clean_vector, BitVec.setWidth_and, ones, BitVec.and_allOnes]

theorem set_bit (x : BitVec 64) : (clean ((x ||| 0x10000).setWidth 32)).getLsbD 16 = true := by
  rw [clean_mask]
  simp

theorem entry_facts (e : RetEntry) : (e.word.setWidth 32).setWidth 8 = e.vector ∧
    (e.word.setWidth 32).getLsbD 16 = e.mask.getLsbD 0 ∧
    ((e.word >>> 32).setWidth 32).extractLsb' 24 4 = e.phy_dest := by
  have vector : e.word.extractLsb' 0 8 = e.vector :=
    e.layout.get ⟨0, e.vector⟩ (by simp [RetEntry.layout])
  have mask : e.word.extractLsb' 16 1 = e.mask :=
    e.layout.get ⟨16, e.mask⟩ (by simp [RetEntry.layout])
  have dest : e.word.extractLsb' 56 4 = e.phy_dest :=
    e.layout.get ⟨56, e.phy_dest⟩ (by simp [RetEntry.layout])
  refine ⟨?_, ?_, ?_⟩
  · rw [← vector]
    ext i inside
    simp
  · rw [← mask]
    simp
  · rw [← dest]
    ext i inside
    have shifted : 24 + i < 32 := by omega
    simp [shifted, ← Nat.add_assoc]

end bits

section blocks
variable {r : Routes H} {pin : Nat} {k k' : Knowledge H} {post : Apic H → Prop}
  {fs : List (Apic H → Apic H)}

def Covers (r : Routes H) (pin : Nat) (k : Knowledge H) : Prop :=
  ∀ d l h, k.desc d → k.low l → k.high h → Fits pin d l h (r.pin pin)

theorem covers_masked (none_yet : r.pin pin = none) (masked : ∀ l, k.low l → l.getLsbD 16 = true) :
    Covers r pin k := by
  intro d l h _ known _
  rw [none_yet]
  exact masked l known

theorem served_of_covers (covers : Covers r pin k) (p : Apic H) (knows : Knows r pin k p) :
    r.Served p := served_of_fits (knows_all knows covers)

theorem knows_weaken {p : Apic H} (knows : Knows r pin k p) (desc : ∀ d, k.desc d → k'.desc d)
    (low : ∀ l, k.low l → k'.low l) (high : ∀ h, k.high h → k'.high h)
    (index : ∀ i, k.index i → k'.index i) (value : ∀ v, k.value v → k'.value v) :
    Knows r pin k' p :=
  ⟨desc _ knows.desc, low _ knows.low, high _ knows.high, index _ knows.index,
    value _ knows.value, knows.others, knows.ipis⟩

theorem leads_weaken {mid : Apic H → Prop} (next : Leads mid post r pin fs k')
    (desc : ∀ d, k.desc d → k'.desc d) (low : ∀ l, k.low l → k'.low l)
    (high : ∀ h, k.high h → k'.high h) (index : ∀ i, k.index i → k'.index i)
    (value : ∀ v, k.value v → k'.value v) : Leads mid post r pin fs k :=
  fun p knows => next p (knows_weaken knows desc low high index value)

theorem leads_nil (small : pin < 24) (covers : Covers r pin k)
    (ends : ∀ p, Knows r pin k p → post p) : Leads r.Served post r pin [] k :=
  fun _ knows => outline_nil (knows_stable small)
    (fun p there => ⟨served_of_covers covers p there, ends p there⟩) knows

theorem leads_done (small : pin < 24) (covers : Covers r pin k) :
    Leads r.Served (AllFit r) r pin [] k :=
  leads_nil small covers fun _ there => knows_all there covers

theorem leads_read (small : pin < 24) (covers : Covers r pin k)
    (next : Leads r.Served post r pin fs { k with
      index := (· = BitVec.ofNat 8 (0x10 + 2 * pin))
      value := fun v => ∃ h l, k.high h ∧ k.low (clean l) ∧
        v = h.setWidth 64 <<< 32 ||| l.setWidth 64 }) :
    Leads r.Served post r pin (rteRead (rteIndex (irqOf pin)) ++ fs) k := by
  rw [rteRead, rteIndex_low small, rteIndex_high]
  have served {k' : Knowledge H} (covers : Covers r pin k') := served_of_covers covers
  refine leads_cons small (served covers) (fun _ => knows_select _) ?_
  refine leads_cons small (served covers) (fun _ => knows_readHigh _ fun _ same => same) ?_
  refine leads_cons small (served covers) (fun _ => knows_select _) ?_
  refine leads_cons small (served covers) (fun _ => knows_readLow _ fun _ same => same) ?_
  intro p knows
  refine next p (knows_weaken knows (fun _ => id) (fun _ => id) (fun _ => id) (fun _ => id) ?_)
  rintro v ⟨_, l, ⟨_, h, _, high, rfl⟩, low, rfl⟩
  exact ⟨h, l, high, low, rfl⟩

theorem leads_write (small : pin < 24) (covers : Covers r pin k)
    (covers_low : Covers r pin { k with
      low := fun l => ∃ v, k.value v ∧ l = clean (v.setWidth 32) })
    (next : Leads r.Served post r pin fs { k with
      low := fun l => ∃ v, k.value v ∧ l = clean (v.setWidth 32)
      high := fun h => ∃ v, k.value v ∧ h = (v >>> 32).setWidth 32
      index := fun _ => True
      value := fun _ => True }) :
    Leads r.Served post r pin (rteWrite (rteIndex (irqOf pin)) ++ fs) k := by
  rw [rteWrite, rteIndex_low small, rteIndex_high]
  have served {k' : Knowledge H} (covers : Covers r pin k') := served_of_covers covers
  refine leads_cons small (served covers) (fun _ => knows_select _) ?_
  refine leads_cons small (served covers) (fun _ => knows_writeLow small fun _ same => same) ?_
  refine leads_cons small (served covers_low) (fun _ => knows_setValue _) ?_
  refine leads_cons small (served covers_low) (fun _ => knows_select _) ?_
  refine leads_cons small (served covers_low) (fun _ => knows_writeHigh small fun _ same => same) ?_
  intro p knows
  refine next p (knows_weaken knows (fun _ => id) (fun _ => id) ?_ (fun _ _ => trivial)
    fun _ _ => trivial)
  rintro h ⟨_, ⟨v, value, rfl⟩, rfl⟩
  exact ⟨v, value, rfl⟩

end blocks

/- Each call up to the step that it takes effect by, and after it. -/
def Takes (r : Routes H) (c : Call H) (p : Apic H) : Prop :=
  Outline (deviceNoise H) r.Served c.first
    (fun q => Outline (deviceNoise H) (c.apply r).Served c.rest (AllFit (c.apply r)) (c.commit q)) p

section calls
variable {r : Routes H} {pin : Nat} {k : Knowledge H} {p : Apic H}

def unknown : Knowledge H where
  desc _ := True
  low l := l.getLsbD 16 = true
  high _ := True
  index _ := True
  value _ := True

theorem knows_apply {r' : Routes H} (pins : ∀ i, i ≠ pin → r'.pin i = r.pin i)
    (ipis : r'.ipi = r.ipi) (knows : Knows r pin k p) : Knows r' pin k p := by
  refine ⟨knows.desc, knows.low, knows.high, knows.index, knows.value, fun i within other => ?_,
    fun n within => ?_⟩
  · rw [PinFits, pins i other]
    exact knows.others i within other
  · rw [IpiFits, ipis]
    exact knows.ipis n within

def Entry (entry : RetEntry) (l h : BitVec 32) : Prop :=
  l = clean (entry.word.setWidth 32 &&& ~~~0x10000) ∧ h = (entry.word >>> 32).setWidth 32

theorem fits_entry {entry : RetEntry} {handler : H} {parameter : BitVec 64} {d : IrqDesc H}
    {l h : BitVec 32} (vector : entry.vector = BitVec.ofNat 8 (32 + pin))
    (desc : d.handler = some handler ∧ d.parameter = parameter ∧ d.controller = some .edge)
    (set : Entry entry l h) : Fits pin d l h (some ⟨handler, parameter, entry.phy_dest⟩) := by
  obtain ⟨rfl, rfl⟩ := set
  have ⟨low, _, dest⟩ := entry_facts entry
  refine ⟨masked_bit _, ?_, dest, desc.1, desc.2.1, desc.2.2⟩
  rw [masked_vector, clean_vector, low, vector]

theorem clean_comm (w m : BitVec 32) : clean (w &&& m) = clean w &&& m := by
  rw [clean, clean, BitVec.and_assoc, BitVec.and_comm m, BitVec.and_assoc]

def registering (pin : Nat) (entry : RetEntry) (handler : H) (parameter : BitVec 64)
    (unmasked : Bool) : Knowledge H where
  desc d := d.handler = some handler ∧ d.parameter = parameter ∧ d.controller = some .edge
  low l := if unmasked then l = clean (entry.word.setWidth 32 &&& ~~~0x10000)
    else l = clean (entry.word.setWidth 32)
  high h := h = (entry.word >>> 32).setWidth 32
  index i := unmasked = true ∨ i = BitVec.ofNat 8 (0x10 + 2 * pin)
  value v := clean (v.setWidth 32) = clean (entry.word.setWidth 32 &&& ~~~0x10000) ∧
    (v >>> 32).setWidth 32 = (entry.word >>> 32).setWidth 32

theorem register_commits {entry : RetEntry} {handler : H} {parameter : BitVec 64}
    {irq_name : String} (small : pin < 24) (vector : entry.vector = BitVec.ofNat 8 (32 + pin))
    (knows : Knows r pin (registering pin entry handler parameter false) p) :
    Outline (deviceNoise H) ((Call.register pin entry handler parameter irq_name).apply r).Served
      (Call.register pin entry handler parameter irq_name).rest
      (AllFit ((Call.register pin entry handler parameter irq_name).apply r)) (writeData p) := by
  obtain ⟨r', is_new⟩ : ∃ r', r' = (Call.register pin entry handler parameter irq_name).apply r :=
    ⟨_, rfl⟩
  have line : r'.pin pin = some ⟨handler, parameter, entry.phy_dest⟩ := by
    rw [is_new]
    exact Function.update_self ..
  have written : Knows r pin (registering pin entry handler parameter true) (writeData p) := by
    have low := knows_writeLow small (fun i index => by simpa [registering] using index) knows
    refine knows_weaken low (fun _ => id) ?_ (fun _ => id) (fun _ _ => .inl rfl) (fun _ => id)
    rintro l ⟨v, ⟨first, _⟩, rfl⟩
    simpa [registering] using first
  have after : Knows r' pin (registering pin entry handler parameter true) (writeData p) := by
    apply knows_apply _ _ written
    · intro i other
      rw [is_new]
      exact Function.update_of_ne other _ _
    · rw [is_new]
      rfl
  have covers {k : Knowledge H} (desc : ∀ d, k.desc d →
      d.handler = some handler ∧ d.parameter = parameter ∧ d.controller = some .edge)
      (set : ∀ l h, k.low l → k.high h → Entry entry l h) : Covers r' pin k := by
    intro d l h known low high
    rw [line]
    exact fits_entry vector (desc d known) (set l h low high)
  have leads : Leads r'.Served (AllFit r') r' pin
      [setValue (· >>> 32), select (rteIndex (irqOf pin) + 1), writeData]
      (registering pin entry handler parameter true) := by
    have first : Covers r' pin (registering pin entry handler parameter true) :=
      covers (fun _ => id) fun l h low high => ⟨by simpa [registering] using low, high⟩
    rw [rteIndex_low small, rteIndex_high]
    refine leads_cons small (served_of_covers first) (fun _ => knows_setValue _) ?_
    refine leads_cons small (served_of_covers first) (fun _ => knows_select _) ?_
    refine leads_cons small (served_of_covers first)
      (fun _ => knows_writeHigh small fun _ same => same) ?_
    apply leads_done small
    apply covers (fun _ => id)
    rintro l _ low ⟨_, ⟨v, ⟨_, second⟩, rfl⟩, rfl⟩
    exact ⟨by simpa [registering] using low, second⟩
  rw [← is_new]
  exact leads _ after

theorem register_takes {entry : RetEntry} {handler : H} {parameter : BitVec 64}
    {irq_name : String} (fits : AllFit r p)
    (allowed : (Call.register pin entry handler parameter irq_name).Allowed r) :
    Takes r (.register pin entry handler parameter irq_name) p := by
  obtain ⟨small, none_yet, mask, vector⟩ := allowed
  have entry_masked : (clean (entry.word.setWidth 32)).getLsbD 16 = true := by
    rw [clean_mask, (entry_facts entry).2.1, mask]
    rfl
  have covers {k : Knowledge H} (masked : ∀ l, k.low l → l.getLsbD 16 = true) : Covers r pin k :=
    covers_masked none_yet masked
  have served {k : Knowledge H} (masked : ∀ l, k.low l → l.getLsbD 16 = true) :=
    served_of_covers (covers masked)
  have begins : Knows r pin unknown p := by
    have masked := fits.pin pin small
    rw [PinFits, none_yet] at masked
    exact ⟨trivial, masked, trivial, trivial, trivial, fun i within _ => fits.pin i within,
      fits.ipi⟩
  let i := (irqOf pin - 32).toNat
  have split : (Call.register pin entry handler parameter irq_name).first =
      [setDesc i ({ · with controller := some .edge }), setDesc i ({ · with irq_name }),
        setDesc i ({ · with parameter }), setDesc i ({ · with flags := 0 }),
        setDesc i ({ · with handler := some handler }), setValue fun _ => entry.word] ++
      (rteWrite (rteIndex (irqOf pin)) ++ (rteRead (rteIndex (irqOf pin)) ++
        [setValue (· &&& ~~~0x10000), select (rteIndex (irqOf pin))])) := rfl
  rw [Takes, split]
  apply (_ : Leads r.Served _ r pin _ unknown) _ begins
  refine leads_cons small (served fun _ => id) (fun _ => knows_setDesc small _) ?_
  refine leads_cons small (served fun _ => id) (fun _ => knows_setDesc small _) ?_
  refine leads_cons small (served fun _ => id) (fun _ => knows_setDesc small _) ?_
  refine leads_cons small (served fun _ => id) (fun _ => knows_setDesc small _) ?_
  refine leads_cons small (served fun _ => id) (fun _ => knows_setDesc small _) ?_
  refine leads_cons small (served fun _ => id) (fun _ => knows_setValue _) ?_
  refine leads_write small (covers fun _ => id) (covers ?_) ?_
  · rintro _ ⟨_, ⟨_, _, rfl⟩, rfl⟩
    exact entry_masked
  refine leads_read small (covers ?_) ?_
  · rintro _ ⟨_, ⟨_, _, rfl⟩, rfl⟩
    exact entry_masked
  refine leads_cons small (served ?_) (fun _ => knows_setValue _) ?_
  · rintro _ ⟨_, ⟨_, _, rfl⟩, rfl⟩
    exact entry_masked
  refine leads_cons small (served ?_) (fun _ => knows_select _) ?_
  · rintro _ ⟨_, ⟨_, _, rfl⟩, rfl⟩
    exact entry_masked
  refine leads_nil small (covers ?_) fun q there => register_commits small vector
    (knows_weaken there ?_ ?_ ?_ ?_ ?_)
  · rintro _ ⟨_, ⟨_, _, rfl⟩, rfl⟩
    exact entry_masked
  · rintro _ ⟨_, ⟨_, ⟨_, ⟨_, ⟨_, _, rfl⟩, rfl⟩, rfl⟩, rfl⟩, rfl⟩
    exact ⟨rfl, rfl, rfl⟩
  · rintro _ ⟨_, ⟨_, _, rfl⟩, rfl⟩
    rfl
  · rintro _ ⟨_, ⟨_, _, rfl⟩, rfl⟩
    rfl
  · intro i index
    exact .inr (by rw [index, rteIndex_low small])
  · rintro _ ⟨_, ⟨h, l, ⟨_, ⟨_, _, rfl⟩, rfl⟩, ⟨_, ⟨_, _, rfl⟩, same⟩, rfl⟩, rfl⟩
    refine ⟨?_, ?_⟩
    · rw [low_mask, word_low, clean_comm, same, clean_comm]
    · rw [shift_mask, word_high]

theorem unregister_takes (fits : AllFit r p) (allowed : (Call.unregister pin).Allowed r) :
    Takes r (.unregister pin) p := by
  obtain ⟨small, routed⟩ := allowed
  obtain ⟨r', is_new⟩ : ∃ r', r' = (Call.unregister pin).apply r := ⟨_, rfl⟩
  have line : r'.pin pin = none := by
    rw [is_new]
    exact Function.update_self ..
  -- The rest of the call finds the line masked.
  have rest : Leads r'.Served (AllFit r') r' pin (Call.unregister pin).rest unknown := by
    have covers {k : Knowledge H} (masked : ∀ l, k.low l → l.getLsbD 16 = true) : Covers r' pin k :=
      covers_masked line masked
    have served {k : Knowledge H} (masked : ∀ l, k.low l → l.getLsbD 16 = true) :=
      served_of_covers (covers masked)
    have uninstalled : (clean ((0x10000 : BitVec 64).setWidth 32)).getLsbD 16 = true := by decide
    let i := (irqOf pin - 32).toNat
    have split : (Call.unregister (H := H) pin).rest =
        [setValue (· >>> 32), select (rteIndex (irqOf pin) + 1), writeData,
          setValue fun _ => 0x10000] ++ (rteWrite (rteIndex (irqOf pin)) ++
          [setDesc i ({ · with controller := none }), setDesc i ({ · with irq_name := "" }),
            setDesc i ({ · with parameter := 0 }), setDesc i ({ · with flags := 0 }),
            setDesc i ({ · with handler := none })]) := rfl
    have place : rteIndex (irqOf pin) + 1 = BitVec.ofNat 8 (0x11 + 2 * pin) := by
      rw [rteIndex_low small, rteIndex_high]
    rw [split]
    refine leads_cons small (served fun _ => id) (fun _ => knows_setValue _) ?_
    refine leads_cons small (served fun _ => id) (fun _ => knows_select _) ?_
    refine leads_cons small (served fun _ => id)
      (fun _ => knows_writeHigh small fun _ same => same.trans place) ?_
    refine leads_cons small (served fun _ => id) (fun _ => knows_setValue _) ?_
    refine leads_write small (covers fun _ => id) (covers ?_) ?_
    · rintro _ ⟨_, ⟨_, _, rfl⟩, rfl⟩
      exact uninstalled
    refine leads_weaken (?_ : Leads _ _ r' pin _ unknown) (fun _ _ => trivial) ?_
      (fun _ _ => trivial) (fun _ _ => trivial) fun _ _ => trivial
    · refine leads_cons small (served fun _ => id) (fun _ => knows_setDesc small _) ?_
      refine leads_cons small (served fun _ => id) (fun _ => knows_setDesc small _) ?_
      refine leads_cons small (served fun _ => id) (fun _ => knows_setDesc small _) ?_
      refine leads_cons small (served fun _ => id) (fun _ => knows_setDesc small _) ?_
      refine leads_cons small (served fun _ => id) (fun _ => knows_setDesc small _) ?_
      exact leads_done small (covers fun _ => id)
    · rintro _ ⟨_, ⟨_, _, rfl⟩, rfl⟩
      exact uninstalled
  have begins : Knows r pin ⟨(· = p.interrupt_desc pin), (· = clean (low p pin)), (· = high p pin),
      fun _ => True, fun _ => True⟩ p :=
    ⟨rfl, rfl, rfl, trivial, trivial, fun i within _ => fits.pin i within, fits.ipi⟩
  have covers {index : BitVec 8 → Prop} {value : BitVec 64 → Prop} : Covers r pin
      ⟨(· = p.interrupt_desc pin), (· = clean (low p pin)), (· = high p pin), index, value⟩ := by
    rintro _ _ _ rfl rfl rfl
    exact fits.pin pin small
  have split : (Call.unregister (H := H) pin).first = rteRead (rteIndex (irqOf pin)) ++
      [setValue (· ||| 0x10000), select (rteIndex (irqOf pin))] := rfl
  rw [Takes, split, ← is_new]
  apply (_ : Leads r.Served _ r pin _ _) _ begins
  refine leads_read small covers ?_
  refine leads_cons small (served_of_covers covers) (fun _ => knows_setValue _) ?_
  refine leads_cons small (served_of_covers covers) (fun _ => knows_select _) ?_
  refine leads_nil small covers fun q there => rest _ ?_
  have at_low (i : BitVec 8) (index : i = rteIndex (irqOf pin)) := index.trans (rteIndex_low small)
  have written := knows_writeLow small at_low there
  apply knows_apply (r := r) _ _ (knows_weaken written (fun _ _ => trivial) _ (fun _ _ => trivial)
    (fun _ _ => trivial) fun _ _ => trivial)
  · intro i other
    rw [is_new]
    exact Function.update_of_ne other _ _
  · rw [is_new]
    rfl
  · rintro _ ⟨_, ⟨_, _, rfl⟩, rfl⟩
    exact set_bit _

theorem setIPI_fits {n : Nat} {f : IrqDesc H → IrqDesc H} (none_yet : r.ipi n = none)
    (handler : ∀ d, (f d).handler = d.handler) (fits : AllFit r p) : AllFit r (setIPI n f p) where
  pin := fits.pin
  ipi i small := by
    by_cases same : i = n
    · subst same
      have before := (fits.ipi i small).1
      refine ⟨?_, fun route some_route => by simp [none_yet] at some_route⟩
      simpa [setIPI, handler] using before
    · have kept : (setIPI n f p).SMP_IPI_desc i = p.SMP_IPI_desc i := Function.update_of_ne same _ _
      rw [IpiFits, kept]
      exact fits.ipi i small

theorem registerIPI_takes {n : Nat} {handler : H} {parameter : BitVec 64} {irq_name : String}
    (fits : AllFit r p) (allowed : (Call.registerIPI n handler parameter irq_name).Allowed r) :
    Takes r (.registerIPI n handler parameter irq_name) p := by
  obtain ⟨small, none_yet⟩ := allowed
  have index := ipiOf_index small
  have split : (Call.registerIPI n handler parameter irq_name).first =
      [setIPI (ipiOf n - 200).toNat ({ · with controller := none }),
        setIPI (ipiOf n - 200).toNat ({ · with irq_name }),
        setIPI (ipiOf n - 200).toNat ({ · with parameter }),
        setIPI (ipiOf n - 200).toNat ({ · with flags := 0 })] := rfl
  have served := fun q (fits : AllFit r q) => served_of_fits fits
  have stable : (deviceNoise H).Stable fun q : Apic H =>
      AllFit r q ∧ (q.SMP_IPI_desc n).parameter = parameter := by
    intro q t noise both
    refine ⟨allFit_stable q t noise both.1, ?_⟩
    rw [noise.1]
    exact both.2
  rw [Takes, split, index]
  refine outline_cons allFit_stable served fits fun q fits => ?_
  refine outline_cons allFit_stable served (setIPI_fits none_yet (fun _ => rfl) fits)
    fun q fits => ?_
  refine outline_cons allFit_stable served (setIPI_fits none_yet (fun _ => rfl) fits)
    fun q fits => ?_
  refine outline_cons stable (fun q both => served q both.1)
    ⟨setIPI_fits none_yet (fun _ => rfl) fits, by simp [setIPI]⟩ fun q both => ?_
  refine outline_nil stable (fun t both => ⟨served t both.1, ?_⟩)
    ⟨setIPI_fits none_yet (fun _ => rfl) both.1, by simpa [setIPI] using both.2⟩
  have set : AllFit ((Call.registerIPI n handler parameter irq_name).apply r)
      (setIPI n ({ · with handler := some handler }) t) := by
    refine ⟨both.1.pin, fun i within => ?_⟩
    by_cases same : i = n
    · subst same
      simp [IpiFits, Call.apply, setIPI, both.2]
    · have kept : (setIPI n ({ · with handler := some handler }) t).SMP_IPI_desc i =
          t.SMP_IPI_desc i := Function.update_of_ne same _ _
      have route : ((Call.registerIPI n handler parameter irq_name).apply r).ipi i = r.ipi i :=
        Function.update_of_ne same _ _
      rw [IpiFits, kept, route]
      exact both.1.ipi i within
  have commit : (Call.registerIPI n handler parameter irq_name).commit t =
      setIPI n ({ · with handler := some handler }) t := by rw [Call.commit, index]
  rw [commit]
  exact outline_nil allFit_stable (fun q fits => ⟨served_of_fits fits, fits⟩) set

theorem call_takes (c : Call H) (fits : AllFit r p) (allowed : c.Allowed r) : Takes r c p := by
  cases c with
  | register pin entry handler parameter irq_name => exact register_takes fits allowed
  | unregister pin => exact unregister_takes fits allowed
  | registerIPI n handler parameter irq_name => exact registerIPI_takes fits allowed

end calls

def Holds (r : Routes H) (p : Apic H) : Stage H → Prop
  | .idle => AllFit r p
  | .before c todo => Outline (deviceNoise H) r.Served todo (fun q =>
      Outline (deviceNoise H) (c.apply r).Served c.rest (AllFit (c.apply r)) (c.commit q)) p
  | .after todo => Outline (deviceNoise H) r.Served todo (AllFit r) p

theorem holds_served {r : Routes H} {p : Apic H} {stage : Stage H} (holds : Holds r p stage) :
    r.Served p := by
  cases stage with
  | idle => exact served_of_fits holds
  | before c todo => exact outline_mid holds
  | after todo => exact outline_mid holds

section runs

structure Masked (m : Nat) (p : Apic H) : Prop where
  pin : ∀ i < m, (low p i).getLsbD 16 = true
  ipi : p.SMP_IPI_desc = fun _ => .zero

def initEntry (m : Nat) (p : Apic H) : Apic H :=
  let first := writeData (select (BitVec.ofNat 8 (0x10 + 2 * m))
    (setValue (fun _ => 0x10020 + BitVec.ofNat 64 m) p))
  writeData (select (BitVec.ofNat 8 (0x10 + 2 * m) + 1) (setValue (· >>> 32) first))

theorem init_entries (m : Nat) (p : Apic H) :
    (((List.range m).flatMap fun n => [setValue fun _ => 0x10020 + BitVec.ofNat 64 n] ++
      rteWrite (BitVec.ofNat 8 (0x10 + 2 * n))).foldl (fun p f => f p) p) =
      (List.range m).foldl (fun p n => initEntry n p) p := by
  rw [List.foldl_flatMap]
  rfl

theorem entry_masked : ∀ m < 24,
    (clean ((0x10020 + BitVec.ofNat 64 m).setWidth 32)).getLsbD 16 = true := by decide

theorem masked_step {m : Nat} {p : Apic H} (small : m < 24) (masked : Masked m p) :
    Masked (m + 1) (initEntry m p) := by
  let first := select (BitVec.ofNat 8 (0x10 + 2 * m))
    (setValue (fun _ => 0x10020 + BitVec.ofNat 64 m) p)
  let second := select (BitVec.ofNat 8 (0x10 + 2 * m) + 1) (setValue (· >>> 32) (writeData first))
  have index : second.device.index = BitVec.ofNat 8 (0x11 + 2 * m) := rteIndex_high m
  refine ⟨fun i below => ?_, masked.ipi⟩
  have kept : low (initEntry m p) i = low (writeData first) i :=
    low_apart (p := second) (by rw [index]; exact place_ne (by omega) (by omega) (by omega))
  rw [kept]
  by_cases same : i = m
  · subst same
    rw [← clean_mask, write_low (p := first) small rfl]
    exact entry_masked i small
  · have other : first.device.index ≠ BitVec.ofNat 8 (0x10 + 2 * i) :=
      place_ne (by omega) (by omega) (by omega)
    rw [low_apart other]
    exact masked.pin i (by omega)

theorem masked_init {m : Nat} {p : Apic H} (small : m ≤ 24)
    (clear : p.SMP_IPI_desc = fun _ => .zero) :
    Masked m ((List.range m).foldl (fun p n => initEntry n p) p) := by
  induction m with
  | zero => exact ⟨fun i below => absurd below (Nat.not_lt_zero i), clear⟩
  | succ m ih =>
    rw [List.range_succ, List.foldl_append]
    exact masked_step (by omega) (ih (by omega))

theorem start_fits (device : IoApic) :
    AllFit ⟨fun _ => none, fun _ => none⟩ (start (H := H) device) := by
  have masked : Masked 24 (start (H := H) device) := by
    rw [start, ioapicInit, List.foldl_append, init_entries]
    exact masked_init le_rfl rfl
  refine ⟨fun i small => ?_, fun n _ => ⟨?_, fun route some_route => by simp at some_route⟩⟩
  · show (clean _).getLsbD 16 = true
    rw [clean_mask]
    exact masked.pin i small
  · rw [masked.ipi]
    rfl

theorem visits_holds {r : Routes H} {stage : Stage H} {p : Apic H} (visits : Visits r stage p) :
    Holds r p stage := by
  induction visits with
  | start device => exact start_fits device
  | @device r stage p q _ noise ih =>
    cases stage with
    | idle => exact allFit_stable p q noise ih
    | before c todo => exact outline_noise ih noise
    | after todo => exact outline_noise ih noise
  | call c _ allowed ih => exact call_takes c ih allowed
  | step _ ih => exact outline_step ih
  | @commit r c p _ ih =>
    have out : Outline (deviceNoise H) r.Served [] (fun q => Outline (deviceNoise H)
        (c.apply r).Served c.rest (AllFit (c.apply r)) (c.commit q)) p := ih
    have ends := outline_end out
    exact ends
  | follow _ ih => exact outline_step ih
  | @finish r p _ ih =>
    have out : Outline (deviceNoise H) r.Served [] (AllFit r) p := ih
    have ends := outline_end out
    exact ends

/-- Whenever a device signals, at any point of any driver's registration too, the interrupt comes to
    the handler that the registrations which have taken effect ask for, with its own line's number
    and its parameter, and to no other; a line without a handler stays quiet. -/
theorem signals_routed {r : Routes H} {stage : Stage H} {p : Apic H} (visits : Visits r stage p) :
    r.Served p := holds_served (visits_holds visits)

end runs

section small

/- The keyboard in the middle of register_irq, when its line has just been unmasked. -/
theorem signals_routed_keyboard : ∃ p : Apic Unit,
    (Visits ⟨Function.update (fun _ => none) 1 (some ⟨(), 0, 0⟩), fun _ => none⟩
      (.after (Call.register 1 (driverEntry 0x21) () 0 "ps/2 keyboard").rest) p) ∧
      signal p 1 = some (0, [.call () 33 0, .eoi, .eoi]) := by
  let c : Call Unit := .register 1 (driverEntry 0x21) () 0 "ps/2 keyboard"
  have idle : Visits (H := Unit) ⟨fun _ => none, fun _ => none⟩ .idle (start ⟨0, fun _ => 0⟩) :=
    .start _
  have called := idle.call c ⟨by decide, rfl, rfl, rfl⟩
  have written := called.step.step.step.step.step.step.step.step.step.step.step
  have ready := written.step.step.step.step.step.step
  exact ⟨_, ready.commit, (signals_routed ready.commit).pin 1 (by decide)⟩

end small

end InterruptRouting
