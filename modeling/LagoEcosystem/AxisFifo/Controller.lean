import LagoEcosystem.Library.Clocked
import LagoEcosystem.Library.GrayCode
import LagoEcosystem.Library.LaggedCounters

/-!
# The controller of the asynchronous FIFO

`fifo_async_ctrl` with its parts `fifo_write_ctrl`, `fifo_read_ctrl` and `n_sync`, for a
memory of `2 ^ DEPTH` words (`n` here). The pointers are Gray codes of `DEPTH + 1` bits.

A run is a list of events, and at each event one of the two clocks has its rising edge, or
both have. The synchroniser of the write pointer is clocked by `clkw` and the one of the
read pointer by `clkr`, as the source connects them: a pointer is delayed on the side it
comes from.
-/

namespace LagoEcosystem.AxisFifo

open GrayCode LaggedCounters Clocked

variable {n : ℕ}

/-! ## n_sync -/

/-- The two registers of `n_sync`. -/
structure NSync (w : ℕ) where
  metaReg : BitVec w
  syncReg : BitVec w

def NSync.reset (w : ℕ) : NSync w := ⟨0, 0⟩

def NSync.next {w : ℕ} (s : NSync w) (inAsync : BitVec w) : NSync w := ⟨inAsync, s.metaReg⟩

/-! ## The pointers

`fifo_write_ctrl` and `fifo_read_ctrl` use the same equations for their pointers. -/

/-- The wires `bin`. -/
def bin (ptr : BitVec (n + 1)) : BitVec (n + 1) := ungray ptr

/-- `bin` solves the equation of the source. -/
theorem bin_eq (ptr : BitVec (n + 1)) : bin ptr = ptr ^^^ (bin ptr >>> 1) :=
  (ungray_fixed ptr).symm

def bin1 (ptr : BitVec (n + 1)) : BitVec (n + 1) := bin ptr + 1
def gray1 (ptr : BitVec (n + 1)) : BitVec (n + 1) := bin1 ptr ^^^ (bin1 ptr >>> 1)

/-- `w_addr` and `r_addr`: the folded top bits before the rest. -/
def addrAll (ptr : BitVec (n + 1)) : BitVec n :=
  (BitVec.ofBool (topXor ptr) ++ lowBits ptr).setWidth n

def fullFlag (rPtrIn wPtrReg : BitVec (n + 1)) : Bool :=
  rPtrIn.getLsbD n != wPtrReg.getLsbD n && lowBits rPtrIn == lowBits wPtrReg &&
    topXor rPtrIn == topXor wPtrReg

def emptyFlag (wPtrIn rPtrReg : BitVec (n + 1)) : Bool :=
  wPtrIn.getLsbD n == rPtrReg.getLsbD n && lowBits wPtrIn == lowBits rPtrReg &&
    topXor rPtrReg == topXor wPtrIn

/-! ## fifo_async_ctrl -/

/-- What `clkw` clocks: the pointer of `write_ctrl` and `sync_w_ptr`. -/
structure WrSide (n : ℕ) where
  wPtrReg : BitVec (n + 1)
  syncWPtr : NSync (n + 1)

/-- What `clkr` clocks: the pointer of `read_ctrl` and `sync_r_ptr`. -/
structure RdSide (n : ℕ) where
  rPtrReg : BitVec (n + 1)
  syncRPtr : NSync (n + 1)

structure Ctrl (n : ℕ) where
  wr : WrSide n
  rd : RdSide n

def WrSide.reset (n : ℕ) : WrSide n := ⟨0, .reset _⟩
def RdSide.reset (n : ℕ) : RdSide n := ⟨0, .reset _⟩
/-- The registers after both sides were reset. -/
def Ctrl.reset (n : ℕ) : Ctrl n := ⟨.reset n, .reset n⟩

def Ctrl.full (c : Ctrl n) : Bool := fullFlag c.rd.syncRPtr.syncReg c.wr.wPtrReg
def Ctrl.empty (c : Ctrl n) : Bool := emptyFlag c.wr.syncWPtr.syncReg c.rd.rPtrReg
def Ctrl.wAddr (c : Ctrl n) : BitVec n := addrAll c.wr.wPtrReg
def Ctrl.rAddr (c : Ctrl n) : BitVec n := addrAll c.rd.rPtrReg

/-- The ports of one side at an edge of its clock: the reset, low when active, and the
request. -/
structure Port where
  reset : Bool
  req : Bool

/-- The edges of an event. -/
structure CtrlIn where
  clkw : Option Port
  clkr : Option Port

/-- A write that is accepted. -/
def Ctrl.writes (c : Ctrl n) (p : Port) : Bool := p.req && !c.full
/-- A read that is accepted. -/
def Ctrl.reads (c : Ctrl n) (p : Port) : Bool := p.req && !c.empty

def Ctrl.wrEdge (c : Ctrl n) (p : Port) : WrSide n :=
  if p.reset then
    ⟨if c.writes p then gray1 c.wr.wPtrReg else c.wr.wPtrReg, c.wr.syncWPtr.next c.wr.wPtrReg⟩
  else .reset n

def Ctrl.rdEdge (c : Ctrl n) (p : Port) : RdSide n :=
  if p.reset then
    ⟨if c.reads p then gray1 c.rd.rPtrReg else c.rd.rPtrReg, c.rd.syncRPtr.next c.rd.rPtrReg⟩
  else .reset n

def Ctrl.step (c : Ctrl n) (i : CtrlIn) : Ctrl n :=
  ⟨i.clkw.elim c.wr c.wrEdge, i.clkr.elim c.rd c.rdEdge⟩

/-- The address of the write accepted at this event. -/
def Ctrl.writeOut (c : Ctrl n) (i : CtrlIn) : List (BitVec n) :=
  i.clkw.elim [] fun p => if c.writes p then [c.wAddr] else []

/-- The address of the read accepted at this event. -/
def Ctrl.readOut (c : Ctrl n) (i : CtrlIn) : List (BitVec n) :=
  i.clkr.elim [] fun p => if c.reads p then [c.rAddr] else []

/-! ## Counters behind the pointers -/

/-- The pointer that counts `k`. -/
def ptr (n k : ℕ) : BitVec (n + 1) := gray (BitVec.ofNat (n + 1) k)

/-- The address of access number `k`. -/
def slot (n k : ℕ) : BitVec n := gray (BitVec.ofNat n k)

theorem ofNat_eq_iff {w a b : ℕ} : BitVec.ofNat w a = BitVec.ofNat w b ↔ a % 2 ^ w = b % 2 ^ w := by
  rw [← BitVec.toNat_inj, BitVec.toNat_ofNat, BitVec.toNat_ofNat]

theorem gray1_ptr (k : ℕ) : gray1 (ptr n k) = ptr n (k + 1) := by
  have hbin : bin1 (ptr n k) = BitVec.ofNat (n + 1) (k + 1) := by
    rw [bin1, bin, ptr, ungray_gray, BitVec.ofNat_add]
    rfl
  rw [gray1, hbin]
  rfl

theorem foldTop_ptr (k : ℕ) : foldTop (ptr n k) = slot n k := by
  rw [ptr, foldTop_gray, BitVec.setWidth_ofNat_of_le (Nat.le_succ n)]
  rfl

theorem addrAll_ptr (k : ℕ) : addrAll (ptr n k) = slot n k := foldTop_ptr k

theorem slot_eq_iff {a b : ℕ} : slot n a = slot n b ↔ a % 2 ^ n = b % 2 ^ n := by
  rw [slot, slot, gray_inj, ofNat_eq_iff]

theorem ptr_eq_iff {a b : ℕ} : ptr n a = ptr n b ↔ a % (2 * 2 ^ n) = b % (2 * 2 ^ n) := by
  rw [ptr, ptr, gray_inj, ofNat_eq_iff, Nat.pow_succ, Nat.mul_comm]

theorem emptyFlag_iff (hn : 0 < n) (a b : ℕ) :
    emptyFlag (ptr n a) (ptr n b) = true ↔ a % (2 * 2 ^ n) = b % (2 * 2 ^ n) := by
  rw [← ptr_eq_iff, eq_iff_foldTop hn, emptyFlag]
  grind

theorem fullFlag_iff (hn : 0 < n) (a b : ℕ) :
    fullFlag (ptr n a) (ptr n b) = true ↔
      a % 2 ^ n = b % 2 ^ n ∧ a % (2 * 2 ^ n) ≠ b % (2 * 2 ^ n) := by
  rw [ne_eq, ← ptr_eq_iff, ← slot_eq_iff, ← foldTop_ptr, ← foldTop_ptr, eq_iff_foldTop hn,
    foldTop_eq_iff hn, fullFlag]
  grind

end LagoEcosystem.AxisFifo
