import Mathlib
import GlowOS.Device.Timer
import GlowOS.Fs.State

/-!
# The commands to a disk

`ide_read` and `ide_write` down to the ports. What the driver does is a log of port operations; a
device reads the log, keeps the registers, and decodes a command when one is written. The count of
sectors is a `uint8_t`, and 256 goes through it as 0, which the device and the two copying functions
take for 256 again. The sector number is spread over three registers and the low bits of a fourth,
which also selects the drive.

The lock of the channel and the semaphore `disk_done` are left out, but for an entry in the log
where the thread waits for the interrupt. What the status register shows, and the ticks that pass
while the driver sleeps, are answers of the environment.
-/

namespace GlowOS.Ata

open Program

/-! ## Data -/

/-- `struct disk`, with the port of its channel. -/
structure Disk where
  portBase : ℕ
  devNo : ℕ
  deriving DecidableEq, Repr

/-- What the driver does. -/
inductive PortOp
  | outb (port data : ℕ)
  | inb (port : ℕ)
  | insw (port addr wordCnt : ℕ)
  | outsw (port addr wordCnt : ℕ)
  /-- `sema_down` on `disk_done`. -/
  | wait
  deriving DecidableEq, Repr

/-- The operations so far, how often the status was read, and the clock. -/
structure Driver where
  log : List PortOp
  polls : ℕ
  clock : Clock

/-- What each reading of the status shows, and what passes while the driver sleeps. -/
structure Env where
  status : ℕ → ℕ
  pass : ℕ → ℕ
  sleepFuel : ℕ

/-- Programs of the driver. -/
abbrev AtaM := StateT Driver (Except Fault)

/-! ## The driver -/

/-- An entry of the log. -/
def emit (e : PortOp) : AtaM PUnit := modify fun s ↦ { s with log := s.log ++ [e] }

/-- `reg_device` for a disk. -/
def Disk.device (hd : Disk) : ℕ := 0xa0 ||| 0x40 ||| (if hd.devNo = 1 then 0x10 else 0)

/-- `select_disk`. -/
def selectDisk (hd : Disk) : AtaM PUnit := emit (.outb (hd.portBase + 6) hd.device)

/-- `select_sector`; `secCnt` is a byte. -/
def selectSector (hd : Disk) (lba secCnt : ℕ) : AtaM PUnit := do
  check Fault.assert (lba ≤ maxLba)
  emit (.outb (hd.portBase + 2) secCnt)
  emit (.outb (hd.portBase + 3) (lba % 2 ^ 8))
  emit (.outb (hd.portBase + 4) ((lba >>> 8) % 2 ^ 8))
  emit (.outb (hd.portBase + 5) ((lba >>> 16) % 2 ^ 8))
  emit (.outb (hd.portBase + 6) ((hd.device ||| lba >>> 24) % 2 ^ 8))

/-- `cmd_out`. -/
def cmdOut (hd : Disk) (cmd : ℕ) : AtaM PUnit := emit (.outb (hd.portBase + 7) cmd)

/-- `size_in_byte` for a count that is a byte. -/
def sizeInByte (secCnt : ℕ) : ℕ := if secCnt = 0 then 256 * 512 else secCnt * 512

/-- `read_from_sector`; `secCnt` is a byte. -/
def readFromSector (hd : Disk) (buf secCnt : ℕ) : AtaM PUnit :=
  emit (.insw hd.portBase buf (sizeInByte secCnt / 2))

/-- `write2sector`; `secCnt` is a byte. -/
def write2sector (hd : Disk) (buf secCnt : ℕ) : AtaM PUnit :=
  emit (.outsw hd.portBase buf (sizeInByte secCnt / 2))

/-- A sleep leaves everything but the clock as it is. -/
def sleeping (m : TimerM PUnit) : AtaM PUnit := fun s ↦
  match m s.clock with
  | .ok (_, c) => .ok (PUnit.unit, { s with clock := c })
  | .error e => .error e

/-- The loop of `busy_wait` with its variable `time_limit`. The operand of `-=` is `10 >= 0`, which
is 1. -/
def busyLoop (E : Env) (hd : Disk) : ℕ → AtaM Bool
  | 0 => pure false
  | timeLimit + 1 =>
    if timeLimit = 0 then pure false
    else do
      let s ← get
      let status := E.status s.polls
      emit (.inb (hd.portBase + 7))
      modify fun s ↦ { s with polls := s.polls + 1 }
      if status &&& 0x80 = 0 then pure (status &&& 0x8 != 0)
      else do
        sleeping (mtimeSleep E.pass E.sleepFuel 10)
        busyLoop E hd timeLimit

/-- `busy_wait`. -/
def busyWait (E : Env) (hd : Disk) : AtaM Bool := busyLoop E hd (30 * 1000)

/-- A round of `ide_read`: `secsOp` sectors from `lba` on. -/
def readRound (E : Env) (hd : Disk) (lba buf secsOp : ℕ) : AtaM PUnit := do
  selectSector hd lba (secsOp % 2 ^ 8)
  cmdOut hd 0x20
  emit .wait
  let ready ← busyWait E hd
  check Fault.assert (ready = true)
  readFromSector hd buf (secsOp % 2 ^ 8)

/-- A round of `ide_write`, which waits for the interrupt behind the transfer. -/
def writeRound (E : Env) (hd : Disk) (lba buf secsOp : ℕ) : AtaM PUnit := do
  selectSector hd lba (secsOp % 2 ^ 8)
  cmdOut hd 0x30
  let ready ← busyWait E hd
  check Fault.assert (ready = true)
  write2sector hd buf (secsOp % 2 ^ 8)
  emit .wait

/-- The loop that `ide_read` and `ide_write` have in common, less than `fuel` rounds of it. -/
def ideLoop (round : ℕ → ℕ → ℕ → AtaM PUnit) (lba buf secCnt : ℕ) : ℕ → ℕ → AtaM PUnit
  | 0, _ => throw Fault.hang
  | fuel + 1, secsDone =>
    if secsDone < secCnt then do
      let secsOp := if (secsDone + 256) % 2 ^ 32 ≤ secCnt then 256 else secCnt - secsDone
      round ((lba + secsDone) % 2 ^ 32) ((buf + secsDone * 512) % 2 ^ 32) secsOp
      ideLoop round lba buf secCnt fuel ((secsDone + secsOp) % 2 ^ 32)
    else pure ()

/-- `ide_read`. -/
def ideRead (E : Env) (fuel : ℕ) (hd : Disk) (lba buf secCnt : ℕ) : AtaM PUnit := do
  check Fault.assert (lba ≤ maxLba)
  check Fault.assert (0 < secCnt)
  selectDisk hd
  ideLoop (readRound E hd) lba buf secCnt fuel 0

/-- `ide_write`. -/
def ideWrite (E : Env) (fuel : ℕ) (hd : Disk) (lba buf secCnt : ℕ) : AtaM PUnit := do
  check Fault.assert (lba ≤ maxLba)
  check Fault.assert (0 < secCnt)
  selectDisk hd
  ideLoop (writeRound E hd) lba buf secCnt fuel 0

/-! ## The device -/

/-- A command as the device understands it: what to do, which drive, from which sector on, and how
many sectors. -/
structure Command where
  cmd : ℕ
  dev : ℕ
  lba : ℕ
  count : ℕ
  deriving DecidableEq, Repr

/-- The words that go through the data port for a command, and where they are in memory. -/
structure DataPhase where
  command : Command
  toMemory : Bool
  addr : ℕ
  words : ℕ
  deriving DecidableEq, Repr

/-- The registers of a channel, the command that is carried out, and the transfers so far. -/
structure Device where
  regs : ℕ → ℕ
  command : Command
  done : List DataPhase

/-- How a device reads its registers: 28 bits of a sector number, and 0 for 256 sectors. -/
def decode (regs : ℕ → ℕ) (cmd : ℕ) : Command where
  cmd := cmd
  dev := regs 6 / 16 % 2
  lba := regs 3 + 2 ^ 8 * regs 4 + 2 ^ 16 * regs 5 + 2 ^ 24 * (regs 6 % 16)
  count := if regs 2 = 0 then 256 else regs 2

/-- The device at the ports from `base` on sees an operation. -/
def Device.see (base : ℕ) (d : Device) : PortOp → Device
  | .outb port data =>
    if port = base + 7 then { d with command := decode d.regs data }
    else { d with regs := Function.update d.regs (port - base) data }
  | .inb _ => d
  | .insw port addr words =>
    if port = base then { d with done := d.done ++ [⟨d.command, true, addr, words⟩] } else d
  | .outsw port addr words =>
    if port = base then { d with done := d.done ++ [⟨d.command, false, addr, words⟩] } else d
  | .wait => d

/-- The sectors of a transfer, each with the address of its bytes in memory. -/
def DataPhase.sectors (t : DataPhase) : List (ℕ × ℕ) :=
  (List.range t.command.count).map fun j ↦ (t.command.lba + j, (t.addr + 512 * j) % 2 ^ 32)

/-- The bit that selects a drive. -/
def Disk.drive (hd : Disk) : ℕ := if hd.devNo = 1 then 1 else 0

/-- The transfers `ts` move the sectors from `lba` on, each once and in this order, to or from
consecutive pieces of the buffer, with as many words for each command as it asked for. -/
structure Moves (hd : Disk) (cmd : ℕ) (toMemory : Bool) (lba buf secCnt : ℕ)
    (ts : List DataPhase) : Prop where
  sectors : ts.flatMap DataPhase.sectors =
    (List.range secCnt).map fun i ↦ (lba + i, (buf + 512 * i) % 2 ^ 32)
  words : ∀ t ∈ ts, t.words = 256 * t.command.count
  kind : ∀ t ∈ ts, t.command.cmd = cmd ∧ t.command.dev = hd.drive ∧ t.toMemory = toMemory

/-- From `s` to `s'` the driver makes the device carry out the transfers `ts`. -/
def Sends (hd : Disk) (s s' : Driver) (ts : List DataPhase) : Prop :=
  ∃ ops, s'.log = s.log ++ ops ∧ ∀ d, (ops.foldl (Device.see hd.portBase) d).done = d.done ++ ts

/-- The device is ready whenever the driver looks: not busy, and with data to transfer. -/
def Env.Ready (E : Env) : Prop := ∀ k, E.status k &&& 0x80 = 0 ∧ E.status k &&& 0x8 ≠ 0

/-! ## Single operations -/

section Steps

variable {hd : Disk} {s s' : Driver} {u : PUnit} {lba buf n : ℕ}

@[simp] theorem returns_emit {e : PortOp} :
    Returns (emit e) s u s' ↔ s' = { s with log := s.log ++ [e] } := returns_modify

theorem returns_emit_bind {e : PortOp} {β : Type} {f : PUnit → AtaM β} {b : β} :
    Returns (emit e >>= f) s b s' ↔
      Returns (f PUnit.unit) { s with log := s.log ++ [e] } b s' := returns_modify_bind

/-- What `select_sector` sends. -/
def selectOps (hd : Disk) (lba secCnt : ℕ) : List PortOp :=
  [.outb (hd.portBase + 2) secCnt, .outb (hd.portBase + 3) (lba % 2 ^ 8),
    .outb (hd.portBase + 4) ((lba >>> 8) % 2 ^ 8), .outb (hd.portBase + 5) ((lba >>> 16) % 2 ^ 8),
    .outb (hd.portBase + 6) ((hd.device ||| lba >>> 24) % 2 ^ 8)]

theorem returns_selectSector {secCnt : ℕ} : Returns (selectSector hd lba secCnt) s u s' ↔
    lba ≤ maxLba ∧ s' = { s with log := s.log ++ selectOps hd lba secCnt } := by
  rw [selectSector, returns_check_bind, returns_emit_bind, returns_emit_bind, returns_emit_bind,
    returns_emit_bind, returns_emit]
  simp only [List.append_assoc, List.cons_append, List.nil_append, selectOps]

theorem see_outb {base r data : ℕ} (hr : r ≠ 7) (d : Device) :
    d.see base (.outb (base + r) data) = { d with regs := Function.update d.regs r data } := by
  rw [Device.see, if_neg (by omega), Nat.add_sub_cancel_left]

theorem see_command {base data : ℕ} (d : Device) :
    d.see base (.outb (base + 7) data) = { d with command := decode d.regs data } :=
  if_pos rfl

/-- The register for the device selects the drive and leaves the low four bits to the sector
number. -/
theorem device_bits (hd : Disk) :
    hd.device % 2 ^ 8 / 16 % 2 = hd.drive ∧ hd.device % 2 ^ 8 % 16 = 0 := by
  by_cases h : hd.devNo = 1
  · rw [Disk.device, Disk.drive, if_pos h, if_pos h]
    decide
  · rw [Disk.device, Disk.drive, if_neg h, if_neg h]
    decide

/-- **The device decodes what the driver means.** The registers that `select_sector` writes stand
for the sector number and the count, 256 included. -/
theorem decode_eq {cmd : ℕ} {regs : ℕ → ℕ} (hlba : lba ≤ maxLba) (hlo : 1 ≤ n) (hhi : n ≤ 256)
    (h2 : regs 2 = n % 2 ^ 8) (h3 : regs 3 = lba % 2 ^ 8) (h4 : regs 4 = (lba >>> 8) % 2 ^ 8)
    (h5 : regs 5 = (lba >>> 16) % 2 ^ 8) (h6 : regs 6 = (hd.device ||| lba >>> 24) % 2 ^ 8) :
    decode regs cmd = ⟨cmd, hd.drive, lba, n⟩ := by
  have hmax : lba ≤ 163839 := hlba
  have hhigh : lba >>> 24 = 0 := by
    rw [Nat.shiftRight_eq_div_pow]
    omega
  have hcount : (if n % 2 ^ 8 = 0 then 256 else n % 2 ^ 8) = n := by
    split <;> omega
  have hlow : lba % 2 ^ 8 + 2 ^ 8 * ((lba >>> 8) % 2 ^ 8) + 2 ^ 16 * ((lba >>> 16) % 2 ^ 8) =
      lba := by
    rw [Nat.shiftRight_eq_div_pow, Nat.shiftRight_eq_div_pow]
    omega
  rw [hhigh, Nat.or_zero] at h6
  obtain ⟨hdrive, hrest⟩ := device_bits hd
  rw [decode, h2, h3, h4, h5, h6, hcount, hlow, hdrive, hrest, Nat.mul_zero, Nat.add_zero]

theorem foldl_select {cmd : ℕ} (hlba : lba ≤ maxLba) (hlo : 1 ≤ n) (hhi : n ≤ 256) (d : Device) :
    ∃ regs, (selectOps hd lba (n % 2 ^ 8) ++ [PortOp.outb (hd.portBase + 7) cmd]).foldl
      (Device.see hd.portBase) d = ⟨regs, ⟨cmd, hd.drive, lba, n⟩, d.done⟩ := by
  rw [selectOps]
  simp only [List.cons_append, List.nil_append, List.foldl_cons, List.foldl_nil, see_command,
    see_outb (show 2 ≠ 7 by decide), see_outb (show 3 ≠ 7 by decide),
    see_outb (show 4 ≠ 7 by decide), see_outb (show 5 ≠ 7 by decide),
    see_outb (show 6 ≠ 7 by decide)]
  exact ⟨_, congrArg (fun c ↦ (⟨_, c, _⟩ : Device))
    (decode_eq hlba hlo hhi rfl rfl rfl rfl rfl)⟩

theorem sizeInByte_words (hlo : 1 ≤ n) (hhi : n ≤ 256) : sizeInByte (n % 2 ^ 8) / 2 = 256 * n := by
  rw [sizeInByte]
  split <;> omega

theorem sleeping_log {m : TimerM PUnit} (h : Returns (sleeping m) s u s') : s'.log = s.log := by
  rw [Returns, sleeping] at h
  split at h
  · obtain rfl := (Prod.mk.inj (Except.ok.inj h)).2
    rfl
  · cases h

/-- The driver that waits for the device only looks at it. -/
theorem busyLoop_polls {E : Env} {t : ℕ} {r : Bool} (h : Returns (busyLoop E hd t) s r s') :
    ∃ k, s'.log = s.log ++ List.replicate k (.inb (hd.portBase + 7)) := by
  induction t generalizing s with
  | zero =>
    obtain ⟨-, rfl⟩ := returns_pure.mp h
    exact ⟨0, (List.append_nil _).symm⟩
  | succ t ih =>
    rw [busyLoop, returns_ite] at h
    rcases h with ⟨-, h⟩ | ⟨-, h⟩
    · obtain ⟨-, rfl⟩ := returns_pure.mp h
      exact ⟨0, (List.append_nil _).symm⟩
    · rw [returns_get_bind, returns_emit_bind, returns_modify_bind, returns_ite] at h
      rcases h with ⟨-, h⟩ | ⟨-, h⟩
      · obtain ⟨-, rfl⟩ := returns_pure.mp h
        exact ⟨1, rfl⟩
      · obtain ⟨u, s₁, hsleep, hrest⟩ := returns_bind.mp h
        obtain ⟨k, hk⟩ := ih hrest
        refine ⟨k + 1, ?_⟩
        rw [hk, sleeping_log hsleep, List.replicate_succ, List.append_assoc]
        rfl

theorem foldl_polls {base port k : ℕ} (d : Device) :
    (List.replicate k (PortOp.inb port)).foldl (Device.see base) d = d := by
  induction k with
  | zero => rfl
  | succ k ih => exact ih

end Steps

/-! ## One round -/

section Rounds

variable {E : Env} {hd : Disk} {s s' : Driver} {u : PUnit} {lba buf n : ℕ}

/-- What a round of the loop does: one command for `n` sectors with the transfer that belongs to
it. -/
def RoundSpec (hd : Disk) (cmd : ℕ) (toMemory : Bool) (round : ℕ → ℕ → ℕ → AtaM PUnit) : Prop :=
  ∀ {lba buf n s u s'}, 1 ≤ n → n ≤ 256 → Returns (round lba buf n) s u s' →
    Sends hd s s' [⟨⟨cmd, hd.drive, lba, n⟩, toMemory, buf, 256 * n⟩]

theorem readRound_spec (E : Env) (hd : Disk) : RoundSpec hd 0x20 true (readRound E hd) := by
  intro lba buf n s u s' hlo hhi h
  obtain ⟨_, s₁, hsel, h⟩ := returns_bind.mp h
  obtain ⟨hlba, rfl⟩ := returns_selectSector.mp hsel
  rw [cmdOut, returns_emit_bind, returns_emit_bind] at h
  obtain ⟨ready, s₂, hbusy, h⟩ := returns_bind.mp h
  rw [returns_check_bind, readFromSector, sizeInByte_words hlo hhi] at h
  obtain ⟨-, h⟩ := h
  obtain rfl := returns_emit.mp h
  obtain ⟨k, hk⟩ := busyLoop_polls hbusy
  refine ⟨selectOps hd lba (n % 2 ^ 8) ++ [.outb (hd.portBase + 7) 0x20] ++ [.wait] ++
    List.replicate k (.inb (hd.portBase + 7)) ++ [.insw hd.portBase buf (256 * n)], ?_, fun d ↦ ?_⟩
  · simp only [hk, List.append_assoc]
  · obtain ⟨regs, hregs⟩ := foldl_select hlba hlo hhi d
    rw [List.foldl_append, List.foldl_append, List.foldl_append, hregs, foldl_polls]
    simp only [List.foldl_cons, List.foldl_nil, Device.see, if_true]

theorem writeRound_spec (E : Env) (hd : Disk) : RoundSpec hd 0x30 false (writeRound E hd) := by
  intro lba buf n s u s' hlo hhi h
  obtain ⟨_, s₁, hsel, h⟩ := returns_bind.mp h
  obtain ⟨hlba, rfl⟩ := returns_selectSector.mp hsel
  rw [cmdOut, returns_emit_bind] at h
  obtain ⟨ready, s₂, hbusy, h⟩ := returns_bind.mp h
  rw [returns_check_bind, write2sector, sizeInByte_words hlo hhi, returns_emit_bind] at h
  obtain ⟨-, h⟩ := h
  obtain rfl := returns_emit.mp h
  obtain ⟨k, hk⟩ := busyLoop_polls hbusy
  refine ⟨selectOps hd lba (n % 2 ^ 8) ++ [.outb (hd.portBase + 7) 0x30] ++
    List.replicate k (.inb (hd.portBase + 7)) ++ [.outsw hd.portBase buf (256 * n)] ++ [.wait],
    ?_, fun d ↦ ?_⟩
  · simp only [hk, List.append_assoc]
  · obtain ⟨regs, hregs⟩ := foldl_select hlba hlo hhi d
    rw [List.foldl_append, List.foldl_append, List.foldl_append, hregs, foldl_polls]
    simp only [List.foldl_cons, List.foldl_nil, Device.see, if_true]

/-- A device that is ready is seen to be so at once. -/
theorem returns_busyWait (hE : E.Ready) (s : Driver) :
    Returns (busyWait E hd) s true
      { s with log := s.log ++ [.inb (hd.portBase + 7)], polls := s.polls + 1 } := by
  obtain ⟨hbusy, hdata⟩ := hE s.polls
  rw [busyWait, busyLoop, if_neg (by decide), returns_get_bind, returns_emit_bind,
    returns_modify_bind, if_pos hbusy]
  exact returns_pure.mpr ⟨(bne_iff_ne.mpr hdata).symm, rfl⟩

theorem readRound_returns (hE : E.Ready) (hlba : lba ≤ maxLba) (s : Driver) :
    ∃ s', Returns (readRound E hd lba buf n) s () s' := by
  refine exists_returns_bind (a := ()) (returns_selectSector.mpr ⟨hlba, rfl⟩) ?_
  simp only [cmdOut, returns_emit_bind]
  refine exists_returns_bind (returns_busyWait hE _) ?_
  simp only [returns_check_bind, true_and]
  exact ⟨_, (returns_emit (u := ())).mpr rfl⟩

theorem writeRound_returns (hE : E.Ready) (hlba : lba ≤ maxLba) (s : Driver) :
    ∃ s', Returns (writeRound E hd lba buf n) s () s' := by
  refine exists_returns_bind (a := ()) (returns_selectSector.mpr ⟨hlba, rfl⟩) ?_
  simp only [cmdOut, returns_emit_bind]
  refine exists_returns_bind (returns_busyWait hE _) ?_
  simp only [returns_check_bind, true_and, write2sector, returns_emit_bind]
  exact ⟨_, (returns_emit (u := ())).mpr rfl⟩

end Rounds

/-! ## All rounds -/

section Loop

variable {E : Env} {hd : Disk} {s s' : Driver} {u : PUnit} {cmd lba buf secCnt fuel k : ℕ}
  {toMemory : Bool} {round : ℕ → ℕ → ℕ → AtaM PUnit}

theorem Sends.nil (s : Driver) : Sends hd s s [] :=
  ⟨[], (List.append_nil _).symm, fun _ ↦ (List.append_nil _).symm⟩

theorem Sends.trans {t : Driver} {ts us : List DataPhase} (h₁ : Sends hd s t ts)
    (h₂ : Sends hd t s' us) : Sends hd s s' (ts ++ us) := by
  obtain ⟨ops₁, hlog₁, hdone₁⟩ := h₁
  obtain ⟨ops₂, hlog₂, hdone₂⟩ := h₂
  refine ⟨ops₁ ++ ops₂, ?_, fun d ↦ ?_⟩
  · rw [hlog₂, hlog₁, List.append_assoc]
  · rw [List.foldl_append, hdone₂, hdone₁, List.append_assoc]

theorem Moves.nil : Moves hd cmd toMemory lba buf 0 [] :=
  ⟨rfl, fun _ ht ↦ absurd ht List.not_mem_nil, fun _ ht ↦ absurd ht List.not_mem_nil⟩

/-- Addresses are words. -/
theorem Moves.of_mod {ts : List DataPhase}
    (h : Moves hd cmd toMemory lba (buf % 2 ^ 32) secCnt ts) :
    Moves hd cmd toMemory lba buf secCnt ts where
  sectors := by simpa only [Nat.mod_add_mod] using h.sectors
  words := h.words
  kind := h.kind

/-- One command more in front. -/
theorem Moves.cons {n rest : ℕ} {ts : List DataPhase}
    (h : Moves hd cmd toMemory (lba + n) ((buf + n * 512) % 2 ^ 32) rest ts) :
    Moves hd cmd toMemory lba buf (n + rest)
      (⟨⟨cmd, hd.drive, lba, n⟩, toMemory, buf % 2 ^ 32, 256 * n⟩ :: ts) where
  sectors := by
    rw [List.flatMap_cons, h.sectors, List.range_add, List.map_append, List.map_map]
    congr 1
    · refine List.map_congr_left fun j _ ↦ ?_
      dsimp only
      rw [Nat.mod_add_mod]
    · refine List.map_congr_left fun j _ ↦ ?_
      have haddr : buf + n * 512 + 512 * j = buf + 512 * (n + j) := by ring
      rw [Function.comp_apply, Nat.mod_add_mod, haddr, Nat.add_assoc]
  words := by
    intro t ht
    rcases List.mem_cons.mp ht with rfl | ht
    · rfl
    · exact h.words t ht
  kind := by
    intro t ht
    rcases List.mem_cons.mp ht with rfl | ht
    · exact ⟨rfl, rfl, rfl⟩
    · exact h.kind t ht

/-- **The rounds together move all sectors**, whatever is left to do. -/
theorem ideLoop_moves (hround : RoundSpec hd cmd toMemory round) (hk : k ≤ secCnt)
    (hmax : lba + secCnt ≤ maxLba + 1)
    (h : Returns (ideLoop round lba buf secCnt fuel k) s u s') :
    ∃ ts, Sends hd s s' ts ∧
      Moves hd cmd toMemory (lba + k) ((buf + k * 512) % 2 ^ 32) (secCnt - k) ts := by
  induction fuel generalizing s k with
  | zero => exact absurd h returns_throw
  | succ fuel ih =>
    have hlba : lba + secCnt ≤ 163840 := hmax
    rw [ideLoop, returns_ite] at h
    rcases h with ⟨hlt, h⟩ | ⟨hend, h⟩
    · generalize hn : (if (k + 256) % 2 ^ 32 ≤ secCnt then 256 else secCnt - k) = n at h
      have hsize : 1 ≤ n ∧ n ≤ 256 ∧ k + n ≤ secCnt := by
        rw [← hn]
        split <;> omega
      obtain ⟨hlo, hhi, hle⟩ := hsize
      obtain ⟨_, s₁, hone, hrest⟩ := returns_bind.mp h
      rw [Nat.mod_eq_of_lt (show k + n < 2 ^ 32 by omega)] at hrest
      rw [Nat.mod_eq_of_lt (show lba + k < 2 ^ 32 by omega)] at hone
      obtain ⟨ts, hsends, hmoves⟩ := ih hle hrest
      refine ⟨_, (hround hlo hhi hone).trans hsends, ?_⟩
      rw [show secCnt - k = n + (secCnt - (k + n)) by omega]
      have hnext : (buf + (k + n) * 512) % 2 ^ 32 =
          ((buf + k * 512) % 2 ^ 32 + n * 512) % 2 ^ 32 := by
        omega
      rw [← Nat.add_assoc, hnext] at hmoves
      have hcons := hmoves.cons
      rwa [Nat.mod_mod] at hcons
    · obtain ⟨-, rfl⟩ := returns_pure.mp h
      refine ⟨[], .nil s', ?_⟩
      rw [show secCnt - k = 0 by omega]
      exact .nil

theorem ideLoop_returns (hround : ∀ {lba buf n : ℕ}, lba ≤ maxLba → ∀ s : Driver,
      ∃ s', Returns (round lba buf n) s () s') (hk : k ≤ secCnt)
    (hmax : lba + secCnt ≤ maxLba + 1) (hfuel : secCnt - k < fuel) (s : Driver) :
    ∃ s', Returns (ideLoop round lba buf secCnt fuel k) s () s' := by
  induction fuel generalizing s k with
  | zero => omega
  | succ fuel ih =>
    have hlba : lba + secCnt ≤ 163840 := hmax
    rw [ideLoop]
    by_cases hlt : k < secCnt
    · rw [if_pos hlt]
      generalize hn : (if (k + 256) % 2 ^ 32 ≤ secCnt then 256 else secCnt - k) = n
      have hsize : 1 ≤ n ∧ k + n ≤ secCnt := by
        rw [← hn]
        split <;> omega
      obtain ⟨hlo, hle⟩ := hsize
      have hfirst : (lba + k) % 2 ^ 32 ≤ maxLba := by
        change _ ≤ 163839
        omega
      obtain ⟨s₁, hone⟩ := hround hfirst s
      refine exists_returns_bind hone ?_
      rw [Nat.mod_eq_of_lt (show k + n < 2 ^ 32 by omega)]
      exact ih hle (by omega) s₁
    · rw [if_neg hlt]
      exact ⟨s, returns_pure.mpr ⟨rfl, rfl⟩⟩

end Loop

/-! ## A call -/

section Calls

variable {E : Env} {hd : Disk} {lba secCnt : ℕ}

/-- What both calls do before the loop. -/
theorem select_sends (hd : Disk) (s : Driver) :
    Sends hd s { s with log := s.log ++ [.outb (hd.portBase + 6) hd.device] } [] := by
  refine ⟨[.outb (hd.portBase + 6) hd.device], rfl, fun d ↦ ?_⟩
  rw [List.foldl_cons, List.foldl_nil, see_outb (by decide), List.append_nil]

end Calls

end GlowOS.Ata
