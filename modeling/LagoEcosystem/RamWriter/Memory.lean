import LagoEcosystem.Library.ByteMemory
import LagoEcosystem.Library.RingMemory
import LagoEcosystem.RamWriter.Address

/-!
# The memory behind the RAM writer

The memory that the write channels of `axis_ram_writer` lead to, byte by byte. When no beat
overtakes its address, it is a ring of `2 ^ ADDR_WIDTH` words from `cfg_data` on, filled with
the accepted words in turn, and no other byte is ever written.
-/

namespace LagoEcosystem.RamWriter

open BitFields ByteMemory Clocked RingMemory

variable {g : Generics}

/-- The constant outputs `m_axi_awlen` and `m_axi_awsize`: bursts of 16 beats of 8 bytes. -/
def mAxiAwlen : ℕ := 15
def mAxiAwsize : ℕ := addrSize

/-- Where beat `k` of a run goes, `as` being the addresses transferred. `m_axi_awburst` says
INCR. -/
def beatAddress (as : List (BitVec g.axiAddrWidth)) (k : ℕ) : Option (BitVec g.axiAddrWidth) :=
  as[k / (mAxiAwlen + 1)]?.map fun a => offset a (2 ^ mAxiAwsize * (k % (mAxiAwlen + 1)))

/-- Beat `k` reaches the memory; `m_axi_wstrb` enables all bytes. A beat without an address
waits. What an empty FIFO shows is stored as zero. -/
def storeBeat (as : List (BitVec g.axiAddrWidth)) (m : Memory g.axiAddrWidth)
    (b : Beat g × ℕ) : Memory g.axiAddrWidth :=
  (beatAddress as b.2).elim m fun a => store (B := 8) m a (b.1.data.getD 0)

/-- The memory after the cycles of `is`, `mem` being what it held before. -/
def memory (mem : Memory g.axiAddrWidth) (is : List (In g)) : Memory g.axiAddrWidth :=
  (beats is).zipIdx.foldl (storeBeat (addresses is)) mem

/-- The stream of the accepted words. -/
def acceptedWord (is : List (In g)) (k : ℕ) : BitVec 64 := (accepted is).getD k 0

/-- The words of the ring after the cycles of `is`. -/
def ringWord (cfg : BitVec g.axiAddrWidth) (mem : Memory g.axiAddrWidth) (is : List (In g)) :
    ℕ → BitVec 64 :=
  fill (2 ^ g.addrWidth) (cellsAt 8 cfg mem) (acceptedWord is) (beats is).length

/-- The memory after the run `is`. -/
structure MemoryLaw (cfg : BitVec g.axiAddrWidth) (mem : Memory g.axiAddrWidth)
    (is : List (In g)) : Prop where
  /-- The beats carry accepted words. -/
  stored : (beats is).length ≤ (accepted is).length
  ring : Shows (B := 8) (2 ^ g.addrWidth) cfg (memory mem is) (ringWord cfg mem is)
  outside : ∀ x, 8 * 2 ^ g.addrWidth ≤ (x - cfg).toNat → memory mem is x = mem x

/-- A cycle of a configured run with honest flags in which no beat overtakes its address. -/
def Orderly (cfg : BitVec g.axiAddrWidth) (s : St g) (i : In g) : Prop :=
  Honest s i ∧ InOrder cfg s i

instance (cfg : BitVec g.axiAddrWidth) (s : St g) (i : In g) : Decidable (InOrder cfg s i) :=
  inferInstanceAs (Decidable (_ ∧ _))

instance (cfg : BitVec g.axiAddrWidth) (s : St g) (i : In g) : Decidable (Orderly cfg s i) :=
  inferInstanceAs (Decidable (_ ∧ _))

/-! ## Where the beats go -/

/-- A word of burst `k / 16`, counted in the ring. -/
theorem offset_burstAddress (cfg : BitVec g.axiAddrWidth) (k : ℕ) :
    offset (burstAddress cfg (k / 16)) (8 * (k % 16)) = offset cfg (8 * (k % 2 ^ g.addrWidth)) := by
  have hring : 2 ^ g.addrWidth = 16 * (2 ^ g.addrWidth / 16) := by
    have hdvd : 16 ∣ 2 ^ g.addrWidth := by simpa using Nat.pow_dvd_pow 2 g.four_le
    omega
  have hsplit : k % 2 ^ g.addrWidth = k % 16 + 16 * (k / 16 % (2 ^ g.addrWidth / 16)) := by
    rw [hring, Nat.mod_mul, ← hring]
  rw [burstAddress, ← offset, offset_add, hsplit]
  congr 1
  omega

section Run

variable {cfg : BitVec g.axiAddrWidth} {is : List (In g)}

theorem Orderly.honest (h : Along step (Orderly cfg) (.reset g) is) :
    Along step Honest (.reset g) is := h.mono fun _ _ hi => hi.1

theorem Orderly.inOrder (h : Along step (Orderly cfg) (.reset g) is) :
    Along step (InOrder cfg) (.reset g) is := h.mono fun _ _ hi => hi.2

/-- Every beat that has passed has its address. -/
theorem length_beats_le (h : Along step (InOrder cfg) (.reset g) is) :
    (beats is).length ≤ 16 * (addresses is).length := by
  have hidle := (counted_after (InOrder.aresetn h)).idle
  obtain ⟨hwaits, hown⟩ := addressed_after h
  cases haw : (after is).intAwvalidReg <;> cases hw : (after is).intWvalidReg <;>
    simp only [haw, hw, Bool.toNat_true, Bool.toNat_false] at hidle hwaits hown <;> grind

theorem beatAddress_eq (h : Along step (InOrder cfg) (.reset g) is) {k : ℕ}
    (hk : k < (beats is).length) :
    beatAddress (addresses is) k = some (offset cfg (8 * (k % 2 ^ g.addrWidth))) := by
  have hle := length_beats_le h
  have hlt : k / 16 < (addresses is).length := by omega
  have haddr := addresses_eq h (k / 16) _ (List.getElem?_eq_getElem hlt)
  have hdiv : mAxiAwlen + 1 = 16 := rfl
  have hsize : 2 ^ mAxiAwsize = 8 := by decide
  rw [beatAddress, hdiv, hsize, List.getElem?_eq_getElem hlt, Option.map_some, haddr,
    offset_burstAddress]

/-- The beats carry the accepted words. -/
theorem data_isPrefix (h : Along step Honest (.reset g) is) :
    (beats is).map Beat.data <+: (accepted is).map some := ⟨_, (stocked_after h).flow.symm⟩

theorem beat_data (h : Along step Honest (.reset g) is) {k : ℕ} {b : Beat g}
    (hb : (beats is)[k]? = some b) : b.data = some (acceptedWord is k) := by
  have hk := (List.getElem?_eq_some_iff.mp hb).1
  have hlen := (data_isPrefix h).length_le
  have hword := (data_isPrefix h).getElem (i := k) (by simpa using hk)
  rw [List.length_map, List.length_map] at hlen
  have hget := (List.getElem?_eq_some_iff.mp hb).2
  rw [List.getElem_map, List.getElem_map, hget] at hword
  rw [hword, acceptedWord, List.getD_eq_getElem?_getD, List.getElem?_eq_getElem (by omega),
    Option.getD_some]

end Run

/-! ## The memory -/

theorem ring_fits (g : Generics) : 8 * 2 ^ g.addrWidth ≤ 2 ^ g.axiAddrWidth := by
  have hfits := Nat.pow_le_pow_right (by decide : 0 < 2) g.fits
  rw [addrSize_eq, Nat.pow_add] at hfits
  omega

/-- The beats from number `k` on, each with its place in the ring, carry the ring from `k`
words to more. -/
theorem foldl_storeBeat {cfg : BitVec g.axiAddrWidth} {as : List (BitVec g.axiAddrWidth)}
    {init w : ℕ → BitVec 64} (bs : List (Beat g)) (k : ℕ) (m : Memory g.axiAddrWidth)
    (hbs : ∀ j b, bs[j]? = some b →
      beatAddress as (k + j) = some (offset cfg (8 * ((k + j) % 2 ^ g.addrWidth))) ∧
        b.data = some (w (k + j)))
    (hm : Shows (B := 8) (2 ^ g.addrWidth) cfg m (fill (2 ^ g.addrWidth) init w k)) :
    Shows (B := 8) (2 ^ g.addrWidth) cfg ((bs.zipIdx k).foldl (storeBeat as) m)
        (fill (2 ^ g.addrWidth) init w (k + bs.length)) ∧
      ∀ x, 8 * 2 ^ g.addrWidth ≤ (x - cfg).toNat → (bs.zipIdx k).foldl (storeBeat as) m x = m x := by
  induction bs generalizing k m with
  | nil => exact ⟨hm, fun x _ => rfl⟩
  | cons b bs ih =>
    obtain ⟨haddr, hdata⟩ := hbs 0 b rfl
    rw [Nat.add_zero] at haddr hdata
    have hcell : k % 2 ^ g.addrWidth < 2 ^ g.addrWidth := Nat.mod_lt k (Nat.two_pow_pos _)
    have hstore : storeBeat as m (b, k) =
        store (B := 8) m (offset cfg (8 * (k % 2 ^ g.addrWidth))) (w k) := by
      rw [storeBeat, haddr, hdata]
      rfl
    obtain ⟨hring, hout⟩ := ih (k + 1) (storeBeat as m (b, k))
      (fun j c hc => by
        have hnext := hbs (j + 1) c hc
        rwa [← Nat.add_assoc, Nat.add_right_comm] at hnext)
      (by rw [hstore]; exact hm.store (ring_fits g) hcell (w k))
    rw [List.zipIdx_cons, List.foldl_cons, List.length_cons, Nat.add_comm bs.length,
      ← Nat.add_assoc]
    refine ⟨hring, fun x hx => ?_⟩
    rw [hout x hx, hstore]
    exact store_outside hcell (w k) hx

section Run

variable {cfg : BitVec g.axiAddrWidth} {is : List (In g)}

theorem length_beats_le_accepted (h : Along step (Orderly cfg) (.reset g) is) :
    (beats is).length ≤ (accepted is).length := by
  have hstored := (data_isPrefix (Orderly.honest h)).length_le
  rwa [List.length_map, List.length_map] at hstored

theorem memory_ring (h : Along step (Orderly cfg) (.reset g) is) (mem : Memory g.axiAddrWidth) :
    Shows (B := 8) (2 ^ g.addrWidth) cfg (memory mem is) (ringWord cfg mem is) ∧
      ∀ x, 8 * 2 ^ g.addrWidth ≤ (x - cfg).toNat → memory mem is x = mem x := by
  have hall := foldl_storeBeat (beats is) 0 mem
    (fun j b hb => by
      rw [Nat.zero_add]
      exact ⟨beatAddress_eq (Orderly.inOrder h) (List.getElem?_eq_some_iff.mp hb).1,
        beat_data (Orderly.honest h) hb⟩)
    (shows_cellsAt _ cfg mem)
  rwa [Nat.zero_add] at hall

/-- A part of a word that is in the ring. -/
theorem load_acceptedWord (h : Along step (Orderly cfg) (.reset g) is)
    (mem : Memory g.axiAddrWidth) {k b : ℕ} (C : ℕ) (hk : k < (beats is).length)
    (hring : (beats is).length ≤ k + 2 ^ g.addrWidth) (hb : b + C ≤ 8) :
    load C (memory mem is) (offset cfg (8 * (k % 2 ^ g.addrWidth) + b)) =
      (acceptedWord is k).extractLsb' (8 * b) (8 * C) := by
  have hcell : ringWord cfg mem is (k % 2 ^ g.addrWidth) = acceptedWord is k := fill_mod hk hring
  rw [← hcell]
  exact (memory_ring h mem).1.load (Nat.mod_lt k (Nat.two_pow_pos _)) C hb

end Run

/-- The memory is the ring of the accepted words, and nothing else changes. -/
theorem memoryLaw (cfg : BitVec g.axiAddrWidth) (mem : Memory g.axiAddrWidth) (is : List (In g))
    (h : Along step (Orderly cfg) (.reset g) is) : MemoryLaw cfg mem is :=
  ⟨length_beats_le_accepted h, (memory_ring h mem).1, (memory_ring h mem).2⟩

theorem memoryLaw_burst :
    (beats burst).length = 16 ∧ MemoryLaw 0x1E000000 (fun _ => 0) burst :=
  ⟨by decide +kernel, memoryLaw 0x1E000000 _ burst (by decide +kernel)⟩

/-! ## Bytes -/

/-- The bytes of the accepted words, the low one of each word first. -/
def acceptedByte (is : List (In g)) (i : ℕ) : BitVec 8 := byteAt (acceptedWord is (i / 8)) (i % 8)

theorem acceptedWord_of_isPrefix {is js : List (In g)} (h : is <+: js) {k : ℕ}
    (hk : k < (accepted is).length) : acceptedWord js k = acceptedWord is k := by
  obtain ⟨ks, rfl⟩ := h
  rw [acceptedWord, acceptedWord, accepted, collect_append, ← accepted,
    List.getD_eq_getElem?_getD, List.getElem?_append_left hk, ← List.getD_eq_getElem?_getD]

/-- A byte of the ring, the stream being that of a longer run. -/
theorem memory_offset {cfg : BitVec g.axiAddrWidth} {is js : List (In g)} (hjs : js <+: is)
    (mem : Memory g.axiAddrWidth) (h : Along step (Orderly cfg) (.reset g) is) {i : ℕ}
    (hi : i < 8 * 2 ^ g.addrWidth) :
    memory mem js (offset cfg i) =
      fill (8 * 2 ^ g.addrWidth) (fun i => byteAt (cellsAt 8 cfg mem (i / 8)) (i % 8))
        (acceptedByte is) (8 * (beats js).length) i := by
  have hstored := length_beats_le_accepted (h.of_isPrefix hjs)
  have hbyte := (memory_ring (h.of_isPrefix hjs) mem).1 (i / 8) (by omega) (i % 8) (by omega)
  rw [Nat.div_add_mod] at hbyte
  rw [hbyte, ringWord, ← fill_parts (by decide) (fun d b => byteAt d b)]
  refine congrFun (fill_congr fun j hj => ?_) i
  rw [acceptedByte, acceptedWord_of_isPrefix hjs (by omega)]

/-- The words of four bytes of the stream, the low half of each accepted word first. -/
def acceptedHalf (is : List (In g)) (i : ℕ) : BitVec 32 :=
  (acceptedWord is (i / 2)).extractLsb' (32 * (i % 2)) 32

/-- A half of a word of the ring, the stream being that of a longer run. -/
theorem load_half {cfg : BitVec g.axiAddrWidth} {is js : List (In g)} (hjs : js <+: is)
    (mem : Memory g.axiAddrWidth) (h : Along step (Orderly cfg) (.reset g) is) {i : ℕ}
    (hi : i < 2 * 2 ^ g.addrWidth) :
    load 4 (memory mem js) (offset cfg (4 * i)) =
      fill (2 * 2 ^ g.addrWidth)
        (fun i => (cellsAt 8 cfg mem (i / 2)).extractLsb' (32 * (i % 2)) 32)
        (acceptedHalf is) (2 * (beats js).length) i := by
  have hstored := length_beats_le_accepted (h.of_isPrefix hjs)
  have hplace : 4 * i = 8 * (i / 2) + 4 * (i % 2) := by omega
  have hbits : 8 * (4 * (i % 2)) = 32 * (i % 2) := by omega
  have hload := (memory_ring (h.of_isPrefix hjs) mem).1.load (j := i / 2) (b := 4 * (i % 2))
    (by omega) 4 (by omega)
  rw [hplace, hload, hbits, ringWord, 
    ← fill_parts (by decide) fun (d : BitVec 64) b => d.extractLsb' (32 * b) 32]
  refine congrFun (fill_congr fun j hj => ?_) i
  rw [acceptedHalf, acceptedWord_of_isPrefix hjs (by omega)]

end LagoEcosystem.RamWriter
