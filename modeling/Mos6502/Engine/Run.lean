import Mos6502.Engine.Basic

/-! Running compiled code. A frame is a run in progress at one host instruction; `Frame.step`
executes that instruction, and a run is a chain of steps. -/
namespace Mos6502

/-- The host offset where a retired block is left, for the guest address there. -/
structure LeavePoint where
  ip : Nat
  pc : Addr
  deriving DecidableEq

structure Frame (M ω : Type) where
  engine : Engine M ω
  pos : Position
  /-- Set while the running block is retired and its last instruction not yet finished. -/
  leaveAt : Option LeavePoint

structure Stopped (M ω : Type) where
  engine : Engine M ω
  result : Except EngineError Halt

inductive Progress (M ω : Type) where
  | running (f : Frame M ω)
  | stopped (s : Stopped M ω)

/-- What a host instruction comes to while a jump is not yet resolved. -/
inductive Turn (M ω : Type) where
  | stay (f : Frame M ω)
  | go (e : Engine M ω) (target : Addr)
  | stop (s : Stopped M ω)

def Stop.result (addr : Addr) : Stop → Except EngineError Halt
  | exit => .ok .exit
  | debugBreak => .ok .debugBreak
  | crash => .error (.deliberateFault addr)
  | undefined opcode => .error (.undefinedOpcode opcode addr)

namespace Engine

variable {M ω : Type} [GuestMemory M]

def answerIrq (e : Engine M ω) : Engine M ω :=
  let ⟨⟨cpu, bus⟩, translator, runner, observer, host, paused, haltRequest⟩ := e
  if cpu.interruptDue then
    let ((cycles, cpu), bus) := Interpreter.interrupt cpu bus
    ⟨⟨{ cpu with budget := cpu.budget - cycles }, bus⟩, translator, runner, observer, host, paused,
      haltRequest⟩
  else
    ⟨⟨cpu, bus⟩, translator, runner, observer, host, paused, haltRequest⟩

/-- The place to enter the block at `target`, compiled now unless it is live. -/
def locate (e : Engine M ω) (target : Addr) : Except Fault (Position × Engine M ω) :=
  match e.blocks.entryAt? target with
  | some entry => .ok (⟨entry, target, entry⟩, e)
  | none =>
    let ⟨⟨cpu, ⟨memory, blocks, deviceFrom⟩⟩, translator, runner, observer, host, paused,
      haltRequest⟩ := e
    match translator.compile blocks memory target with
    | .error fault => .error fault
    | .ok (entry, translator, blocks) =>
      .ok (⟨entry, target, entry⟩,
        ⟨⟨cpu, ⟨memory, blocks, deviceFrom⟩⟩, translator, runner, observer, host, paused,
          haltRequest⟩)

def isIntact (e : Engine M ω) (c : Position) : Bool :=
  e.blocks.entryAt? c.block == some c.entry

/-- Where the last run paused, if nothing has moved since. -/
def validPause? (e : Engine M ω) : Option Position :=
  match e.paused with
  | none => none
  | some r =>
    if r.pc = e.cpu.pc ∧ r.generation = e.translator.arena.generation ∧ e.isIntact r.pos then
      some r.pos
    else
      none

/-- Where to leave a retired block: at the instruction after `pc`, if it belongs to the block. -/
def wayOut? (e : Engine M ω) (pc : Addr) (c : Position) : Option LeavePoint := do
  let opcode ← (e.translator.note pc).opcode
  let next := pc + (operationOf opcode).len.toUInt16
  let ptr ← e.blocks.ptr? next
  if ptr.block ≠ c.block ∨ ptr.hostOffset < c.ip then none else some ⟨ptr.hostOffset, next⟩

def startsRunAt (e : Engine M ω) (ip : Nat) : Bool :=
  match e.translator.arena.decodeAt ip with
  | .ok (.uop u, _) => u.isCountdown
  | _ => false

/-- Stop before the instruction at `addr`: the rest of its run, itself included, is given back. -/
def leaveAt (e : Engine M ω) (addr : Addr) : Except Fault (Engine M ω) := do
  let budget ← e.translator.refund addr e.cpu.budget
  return e.mapCpu fun c => { c with budget, pc := addr }

def bounce (e : Engine M ω) (addr : Addr) : Except Fault (Turn M ω) := do
  let e ← e.leaveAt addr
  let ⟨⟨cpu, bus⟩, translator, runner, observer, host, paused, haltRequest⟩ := e
  let ((step, cpu), bus, host) := runner host cpu bus
  match step.exit with
  | some why =>
    let e := ⟨⟨cpu, bus⟩, translator, runner, observer, host, paused, haltRequest⟩
    return .stop ⟨e, why.result addr⟩
  | none =>
    let cpu := { cpu with budget := cpu.budget - step.cycles }
    let e : Engine M ω := ⟨⟨cpu, bus⟩, translator, runner, observer, host, paused, haltRequest⟩
    let e := e.answerIrq
    let pc := e.cpu.pc
    return .go e pc

end Engine

namespace Frame

variable {M ω : Type} [GuestMemory M]

/-- Charge a countdown run, unless a halt was asked for or the budget does not cover it. -/
def charge (e : Engine M ω) (pos : Position) (len : Nat) (leaveAt : Option LeavePoint)
    (addr : Addr) (cycles : UInt32) : Turn M ω :=
  if e.haltRequest ≠ 0 then
    let reason := Halt.ofBits e.haltRequest
    .stop ⟨e.mapCpu fun c => { c with pc := addr }, .ok reason⟩
  else if e.cpu.budget - cycles.toNat < 0 then
    let paused : Pause := ⟨addr, pos, e.translator.arena.generation⟩
    let e := (e.setPause (some paused)).mapCpu fun c => { c with pc := addr }
    .stop ⟨e, .ok .countdown⟩
  else
    let e := e.mapCpu fun c => { c with budget := c.budget - cycles.toNat }
    .stay ⟨e, { pos with ip := pos.ip + len }, leaveAt⟩

def observe (e : Engine M ω) (pos : Position) (len : Nat) (leaveAt : Option LeavePoint)
    (addr : Addr) : Except Fault (Turn M ω) := do
  match e.observer with
  | none => return .stay ⟨e, { pos with ip := pos.ip + len }, leaveAt⟩
  | some observer =>
    let e := e.mapCpu fun c => { c with pc := addr }
    let (stop, host) := observer e.host addr e.cpu
    let e := { e with host }
    if stop then
      return .stop ⟨← e.leaveAt addr, .ok .externalHalt⟩
    else
      return .stay ⟨e, { pos with ip := pos.ip + len }, leaveAt⟩

def follow (e : Engine M ω) (pos : Position) (len : Nat) (leaveAt : Option LeavePoint)
    (outcome : Outcome) : Except Fault (Turn M ω) := do
  match outcome with
  | .next => return .stay ⟨e, { pos with ip := pos.ip + len }, leaveAt⟩
  | .jump target => return .go e target
  | .stale pc =>
    let pos := { pos with ip := pos.ip + len }
    let leaveAt := if e.isIntact pos then leaveAt else (e.wayOut? pc pos).or leaveAt
    return .stay ⟨e, pos, leaveAt⟩
  | .bounce addr => e.bounce addr
  | .leave addr why => return .stop ⟨← e.leaveAt addr, why.result addr⟩
  | .charge addr cycles => return charge e pos len leaveAt addr cycles
  | .observe addr => observe e pos len leaveAt addr
  | .illegal mnemonic => throw (.rawOpcode mnemonic)

def onCore (e : Engine M ω) (x : Native.Exec M Outcome) : Outcome × Engine M ω :=
  let ⟨core, translator, runner, observer, host, paused, haltRequest⟩ := e
  let (outcome, core) := x core
  (outcome, ⟨core, translator, runner, observer, host, paused, haltRequest⟩)

def executeOp (f : Frame M ω) : Except Fault (Turn M ω) :=
  let ⟨e, pos, leaveAt⟩ := f
  match e.translator.arena.decodeAt pos.ip with
  | .error err => .ok (.stop ⟨e, .error err⟩)
  | .ok (.trap, _) => .ok (.stop ⟨e, .error (.strayTrap pos.ip)⟩)
  | .ok (op, len) =>
    let (outcome, e) := onCore e (Native.execOp op)
    follow e pos len leaveAt outcome

/-- Leave a retired block whose last instruction is finished. What the run still had charged for
the instructions from `pc` on is given back, unless they start a run of their own. -/
def leaveStale (e : Engine M ω) (ip : Nat) (pc : Addr) : Except Fault (Turn M ω) := do
  if e.startsRunAt ip then
    return .go e pc
  else
    let budget ← e.translator.refund pc e.cpu.budget
    return .go (e.mapCpu fun c => { c with budget }) pc

def wayOut? (f : Frame M ω) : Option LeavePoint :=
  f.leaveAt.filter (·.ip == f.pos.ip)

def turn (f : Frame M ω) : Except Fault (Turn M ω) :=
  match f.wayOut? with
  | some p => leaveStale f.engine p.ip p.pc
  | none => f.executeOp

def enter (e : Engine M ω) (target : Addr) : Except Fault (Progress M ω) := do
  let (pos, e) ← e.locate target
  return .running ⟨e, pos, none⟩

def step (f : Frame M ω) : Except Fault (Progress M ω) := do
  match ← f.turn with
  | .stay f => return .running f
  | .go e target => enter e target
  | .stop s => return .stopped s

def run (f : Frame M ω) : Nat → Except Fault (Progress M ω)
  | 0 => .ok (.running f)
  | fuel + 1 =>
    match f.step with
    | .error fault => .error fault
    | .ok (.stopped s) => .ok (.stopped s)
    | .ok (.running f) => f.run fuel

end Frame

namespace Engine

variable {M ω : Type} [GuestMemory M]

/-- The first frame of a run from the current program counter: a pending interrupt is taken, then
the pause is used up or the program counter located. -/
def start (e : Engine M ω) : Except Fault (Frame M ω) := do
  let e := if e.cpu.interruptDue then e.answerIrq.setPause none else e
  match e.validPause? with
  | some pos => return ⟨e.setPause none, pos, none⟩
  | none =>
    let pc := e.cpu.pc
    let (pos, e) ← (e.setPause none).locate pc
    return ⟨e, pos, none⟩

def run (e : Engine M ω) (fuel : Nat) : Except Fault (Progress M ω) := do
  let f ← e.start
  f.run fuel

/-- Enough host instructions for any run with the given budget: each guest instruction uses up a
cycle and takes no more host instructions than its record holds, padding and the way out of a
retired block included. -/
def fuelFor (budget : Int) : Nat :=
  64 * (budget.toNat + 64)

end Engine

end Mos6502
