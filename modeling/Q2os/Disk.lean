import Q2os.ByteMemory
import Q2os.RunQueue

/- The request queue of disk.c over the run queue: nodes ringed around disk_request, one of
   them in use by the drive, and the interrupt handlers that move its sectors. -/
namespace Disk
open ByteMemory CircularList KernelList Run RunQueue

def diskRequest : Nat := 0

def ataReadCmd : Nat := 0x24
def ataWriteCmd : Nat := 0x34

def taskUninterruptible : Nat := 4

inductive Handler where
  | read_handler
  | write_handler

/- tsk is wait_queue.tsk; the list field of wait_queue is in the links. -/
structure BlockBufferNode where
  count : Nat
  cmd : Nat
  LBA : Nat
  buffer : Nat
  endHandler : Handler
  tsk : Nat

structure Request where
  tsk : Nat
  cmd : Nat
  LBA : Nat
  count : Nat
  buffer : Nat

structure Command where
  cmd : Nat
  LBA : Nat
  count : Nat

inductive Move where
  | input (sector address : Nat)
  | output (sector address : Nat)

/- The drive's side: the command it carries out, the interrupts it has raised for it and the
   sectors that went through the data port. -/
structure Drive where
  command : Command
  raised : Nat
  sent : Nat

/- submitted, issued, moved and woken are the history: the requests in the order they were
   submitted, the commands the drive got, the sectors moved and the tasks made runnable. -/
structure Kernel where
  sched : Schedule
  links : Links Nat
  node : Nat → BlockBufferNode
  inUsing : Option Nat
  blockRequestCount : Int
  drive : Drive
  memory : Memory
  platter : Memory
  submitted : List Request
  issued : List Command
  moved : List Move
  woken : List Nat

def diskInit (k : Kernel) : Kernel :=
  { k with
    links := listInit k.links diskRequest
    inUsing := none
    blockRequestCount := 0
    submitted := [], issued := [], moved := [], woken := [] }

def perform : Memory × Memory → Move → Memory × Memory
  | (memory, platter), .input sector address =>
    (copy platter (512 * sector) memory address 512, platter)
  | (memory, platter), .output sector address =>
    (memory, copy memory address platter (512 * sector) 512)

def transferSector (k : Kernel) (m : Move) : Kernel :=
  let after := perform (k.memory, k.platter) m
  { k with
    memory := after.1
    platter := after.2
    drive := { k.drive with sent := k.drive.sent + 1 }
    moved := k.moved ++ [m] }

def portInsw (k : Kernel) (buffer : Nat) : Kernel :=
  transferSector k (.input (k.drive.command.LBA + k.drive.sent) buffer)

def portOutsw (k : Kernel) (buffer : Nat) : Kernel :=
  transferSector k (.output (k.drive.command.LBA + k.drive.sent) buffer)

def sectorCount (count : Nat) : Nat := (count >>> 8) % 256 * 256 + count % 256

def sectorNumber (LBA : Nat) : Nat :=
  LBA % 256 + (LBA >>> 8) % 256 * 2 ^ 8 + (LBA >>> 16) % 256 * 2 ^ 16 +
    (LBA >>> 24) % 256 * 2 ^ 24 + (LBA >>> 32) % 256 * 2 ^ 32 + (LBA >>> 40) % 256 * 2 ^ 40

def cmdOut (k : Kernel) : Kernel :=
  let a := k.links.next diskRequest
  let node := k.node a
  let command : Command := ⟨node.cmd, sectorNumber node.LBA, sectorCount node.count⟩
  let k := { k with
    links := listDel k.links a
    inUsing := some a
    blockRequestCount := k.blockRequestCount - 1
    drive := ⟨command, 0, 0⟩
    issued := k.issued ++ [command] }
  if node.cmd = ataWriteCmd then portOutsw k node.buffer else k

/- none for a task that is not found its place in the run queue within the fuel. -/
def endRequest (fuel : Nat) (k : Kernel) (a : Nat) : Option Kernel :=
  (wakeupProcess fuel k.sched (k.node a).tsk).map fun sched =>
    let k := { k with sched := sched, woken := k.woken ++ [(k.node a).tsk], inUsing := none }
    if k.blockRequestCount ≠ 0 then cmdOut k else k

def addRequest (k : Kernel) (a : Nat) : Kernel :=
  { k with
    links := listAddToBefore k.links diskRequest a
    blockRequestCount := k.blockRequestCount + 1 }

def setNode (k : Kernel) (a : Nat) (node : BlockBufferNode) : Kernel :=
  { k with node := Function.update k.node a node }

def pass (node : BlockBufferNode) : BlockBufferNode :=
  { node with count := (node.count + (2 ^ 32 - 1)) % 2 ^ 32 }

def advance (node : BlockBufferNode) : BlockBufferNode :=
  { node with buffer := node.buffer + 512 }

def readHandler (fuel : Nat) (k : Kernel) (a : Nat) : Option Kernel :=
  let k := portInsw k (k.node a).buffer
  let k := setNode k a (pass (k.node a))
  if (k.node a).count ≠ 0 then some (setNode k a (advance (k.node a)))
  else endRequest fuel k a

def writeHandler (fuel : Nat) (k : Kernel) (a : Nat) : Option Kernel :=
  let k := setNode k a (pass (k.node a))
  if (k.node a).count ≠ 0 then
    let k := setNode k a (advance (k.node a))
    some (portOutsw k (k.node a).buffer)
  else endRequest fuel k a

/- The interrupt: none for one that comes while no request is in use. -/
def diskHandler (fuel : Nat) (k : Kernel) : Option Kernel :=
  k.inUsing.bind fun a =>
    match (k.node a).endHandler with
    | .read_handler => readHandler fuel k a
    | .write_handler => writeHandler fuel k a

/- a is the address kmalloc returned for the node. -/
def makeRequest (k : Kernel) (a cmd blocks count buffer : Nat) : Kernel :=
  let handler := if cmd = ataReadCmd then Handler.read_handler else Handler.write_handler
  let k := { k with links := listInit k.links a }
  setNode k a ⟨count % 2 ^ 32, cmd, blocks, buffer, handler, k.sched.current⟩

def submit (k : Kernel) (a : Nat) : Kernel :=
  let k := addRequest k a
  if k.inUsing = none then cmdOut k else k

def waitForFinish (fuel : Nat) (k : Kernel) : Option Kernel :=
  (schedule fuel (setState k.sched k.sched.current taskUninterruptible)).map fun sched =>
    { k with sched := sched }

def IDETransfer (fuel : Nat) (k : Kernel) (a cmd blocks count buffer : Nat) : Option Kernel :=
  if cmd = ataReadCmd ∨ cmd = ataWriteCmd then
    let r : Request := ⟨k.sched.current, cmd, blocks, count, buffer⟩
    let k := makeRequest { k with submitted := k.submitted ++ [r] } a cmd blocks count buffer
    waitForFinish fuel (submit k a)
  else some k

/- A register value of zero stands for 65536 sectors. -/
def sectors (command : Command) : Nat := if command.count = 0 then 65536 else command.count

inductive Event where
  | transfer (a cmd blocks count buffer : Nat)
  | interrupt
  | sched (e : RunQueue.Event)
  | store (memory : Memory)

def raise (k : Kernel) : Kernel :=
  { k with drive := { k.drive with raised := k.drive.raised + 1 } }

inductive Step : Kernel → Event → Kernel → Prop where
  | transfer (k k' : Kernel) (a cmd blocks count buffer fuel : Nat)
      (returned : IDETransfer fuel k a cmd blocks count buffer = some k') :
      Step k (.transfer a cmd blocks count buffer) k'
  | interrupt (k k' : Kernel) (fuel : Nat) (returned : diskHandler fuel (raise k) = some k') :
      Step k .interrupt k'
  | sched (k : Kernel) (e : RunQueue.Event) (sched : Schedule)
      (step : RunQueue.Step k.sched e sched) : Step k (.sched e) { k with sched := sched }
  | store (k : Kernel) (memory : Memory) : Step k (.store memory) { k with memory := memory }

structure Carried (blocks count : Nat) : Prop where
  some_sector : 1 ≤ count
  in_register : count ≤ 65536
  addressed : blocks + count ≤ 2 ^ 48

/- The node is a fresh block, the idle task submits nothing, the drive interrupts once a
   sector, and only the disk wakes a task that waits for the disk. -/
def Admissible (k : Kernel) : Event → Prop
  | .transfer a _ blocks count _ =>
    a ≠ diskRequest ∧ k.inUsing ≠ some a ∧ (∀ xs, Ring k.links diskRequest xs → a ∉ xs) ∧
      Carried blocks count ∧ k.sched.current ≠ k.sched.initTask
  | .interrupt => k.drive.raised < sectors k.drive.command
  | .sched e => RunQueue.Admissible k.sched e ∧
      ∀ r ∈ k.submitted.drop k.woken.length, e ≠ .wakeup r.tsk
  | .store _ => True

def commandOf (r : Request) : Command := ⟨r.cmd, r.LBA, r.count % 65536⟩

def moveOf (r : Request) (n : Nat) : Move :=
  if r.cmd = ataReadCmd then .input (r.LBA + n) (r.buffer + 512 * n)
  else .output (r.LBA + n) (r.buffer + 512 * n)

def movesOf (r : Request) (n : Nat) : List Move := (List.range n).map (moveOf r)

end Disk
