import LagoEcosystem.Library.CBuffer
import LagoEcosystem.Library.Clocked

/-!
# Reading a line

`rp_UartReadln` stores every byte that it receives before a line feed, and a NUL for the
line feed. It never looks at the length of the buffer, so the length of the line decides
whether it stays inside.
-/

namespace LagoEcosystem.Gps

open CLib Clocked

def newline : Byte := byte '\n'

/-- The loop of `rp_UartReadln`: its pointer with the memory, and whether it has returned. -/
structure Readln where
  buffer : Filling
  returned : Bool

/-- One `read`, which finds a byte or nothing. -/
def Readln.step (s : Readln) (rx : Option Byte) : Readln :=
  if s.returned then s
  else
    match rx with
    | none => s
    | some c =>
      if c = newline then ⟨s.buffer.put 0, true⟩ else { s with buffer := s.buffer.put c }

/-- The offset at which a `read` makes it store a byte. -/
def Readln.storeOut (s : Readln) (rx : Option Byte) : List ℕ :=
  if s.returned then []
  else
    match rx with
    | none => []
    | some _ => [s.buffer.b]

/-- `rp_UartReadln` after the reads of `rx`. The length of the buffer is not used. -/
def rpUartReadln (buffer : ℕ → Byte) (_len : ℕ) (rx : List (Option Byte)) : Readln :=
  run Readln.step ⟨⟨buffer, 0⟩, false⟩ rx

/-- The offsets at which it has stored a byte by then. -/
def stored (buffer : ℕ → Byte) (_len : ℕ) (rx : List (Option Byte)) : List ℕ :=
  collect Readln.step Readln.storeOut ⟨⟨buffer, 0⟩, false⟩ rx

/-- It stores inside the buffer only, and leaves a string there when it returns. -/
structure StaysInside (buffer : ℕ → Byte) (len : ℕ) (rx : List (Option Byte)) : Prop where
  stores : ∀ offset ∈ stored buffer len rx, offset < len
  string : (rpUartReadln buffer len rx).returned = true →
    ∃ s, IsString (rpUartReadln buffer len rx).buffer.mem s ∧ s.length < len

/-! ## What is stored -/

/-- The received bytes. -/
def received (rx : List (Option Byte)) : CString := rx.reduceOption

/-- The bytes before the line feed. -/
def lineOf (bytes : CString) : CString := bytes.takeWhile (· ≠ newline)

/-- What the loop stores for `bytes`. -/
def writes (bytes : CString) : CString :=
  lineOf bytes ++ if newline ∈ bytes then [0] else []

theorem writes_cons_newline (bytes : CString) : writes (newline :: bytes) = [0] := by
  simp [writes, lineOf]

theorem writes_cons {c : Byte} (hc : c ≠ newline) (bytes : CString) :
    writes (c :: bytes) = c :: writes bytes := by
  simp [writes, lineOf, hc, Ne.symm hc]

/-- After its return the loop does nothing. -/
theorem run_returned (buffer : Filling) (rx : List (Option Byte)) :
    run Readln.step ⟨buffer, true⟩ rx = ⟨buffer, true⟩ ∧
      collect Readln.step Readln.storeOut ⟨buffer, true⟩ rx = [] := by
  induction rx with
  | nil => exact ⟨rfl, rfl⟩
  | cons r rx ih => simpa [Readln.step, Readln.storeOut] using ih

theorem run_readln (buffer : Filling) (rx : List (Option Byte)) :
    run Readln.step ⟨buffer, false⟩ rx =
        ⟨buffer.puts (writes (received rx)), decide (newline ∈ received rx)⟩ ∧
      collect Readln.step Readln.storeOut ⟨buffer, false⟩ rx =
        List.range' buffer.b (writes (received rx)).length := by
  induction rx generalizing buffer with
  | nil => exact ⟨rfl, rfl⟩
  | cons r rx ih =>
    cases r with
    | none => exact ih buffer
    | some c =>
      have hreceived : received (some c :: rx) = c :: received rx := rfl
      rw [hreceived]
      by_cases hc : c = newline
      · obtain ⟨hrun, hcollect⟩ := run_returned (buffer.put 0) rx
        subst hc
        simpa [Readln.step, Readln.storeOut, writes_cons_newline, Filling.puts] using
          ⟨hrun, hcollect⟩
      · obtain ⟨hrun, hcollect⟩ := ih (buffer.put c)
        have hb : (buffer.put c).b = buffer.b + 1 := rfl
        rw [hb] at hcollect
        rw [writes_cons hc, Filling.puts_cons, run_cons, collect_cons, List.length_cons,
          List.range'_succ]
        simp [Readln.step, Readln.storeOut, hc, Ne.symm hc, hrun, hcollect]

section Inside

variable (buffer : ℕ → Byte) (len : ℕ) (rx : List (Option Byte))

theorem rpUartReadln_eq : rpUartReadln buffer len rx =
    ⟨(Filling.mk buffer 0).puts (writes (received rx)), decide (newline ∈ received rx)⟩ :=
  (run_readln ⟨buffer, 0⟩ rx).1

theorem mem_stored_iff (offset : ℕ) :
    offset ∈ stored buffer len rx ↔ offset < (writes (received rx)).length := by
  rw [stored, (run_readln ⟨buffer, 0⟩ rx).2, List.mem_range']
  simp

/-- The string that is left is the line up to its first NUL. -/
theorem isString_rpUartReadln (h : newline ∈ received rx) :
    IsString (rpUartReadln buffer len rx).buffer.mem (untilNul (lineOf (received rx))) := by
  rw [rpUartReadln_eq, writes, if_pos h]
  exact isString_puts buffer _

theorem length_untilNul_le (s : CString) : (untilNul s).length ≤ s.length :=
  (List.takeWhile_prefix _).length_le

end Inside

/-- As many bytes are stored as the buffer has room for exactly when the line feed is among
the first that fit, or no more than these arrive. -/
theorem length_writes_le_iff (bytes : CString) (len : ℕ) :
    (writes bytes).length ≤ len ↔ bytes.length ≤ len ∨ newline ∈ bytes.take len := by
  induction bytes generalizing len with
  | nil => simp [writes, lineOf]
  | cons c bytes ih =>
    by_cases hc : c = newline
    · subst hc
      rw [writes_cons_newline]
      cases len with
      | zero => simp
      | succ len => simp
    · rw [writes_cons hc]
      cases len with
      | zero => simp
      | succ len => simp [ih, Ne.symm hc]

/-- The byte that does not fit is stored behind the buffer. -/
theorem StaysInside.length_writes_le {buffer : ℕ → Byte} {len : ℕ} {rx : List (Option Byte)}
    (h : StaysInside buffer len rx) : (writes (received rx)).length ≤ len := by
  by_contra hlong
  exact lt_irrefl len (h.stores len ((mem_stored_iff buffer len rx len).mpr (by omega)))

/-- The line stays inside its buffer if and only if the line feed is among the first `len`
bytes, or no more than `len` bytes arrive. -/
theorem staysInside_iff (buffer : ℕ → Byte) (len : ℕ) (rx : List (Option Byte)) :
    StaysInside buffer len rx ↔
      (received rx).length ≤ len ∨ newline ∈ (received rx).take len := by
  rw [← length_writes_le_iff]
  constructor
  · exact fun h => h.length_writes_le
  · intro hfits
    refine ⟨fun offset hmem => ?_, fun hret => ?_⟩
    · have := (mem_stored_iff buffer len rx offset).mp hmem
      omega
    · have hnl : newline ∈ received rx := by
        rw [rpUartReadln_eq] at hret
        simpa using hret
      refine ⟨_, isString_rpUartReadln buffer len rx hnl, ?_⟩
      have hle := length_untilNul_le (lineOf (received rx))
      rw [writes, if_pos hnl, List.length_append, List.length_singleton] at hfits
      omega

/-- Noise without a line feed. -/
def noise : List (Option Byte) := List.replicate 257 (some 0xFF)

theorem received_replicate (n : ℕ) (c : Byte) :
    received (List.replicate n (some c)) = List.replicate n c := by
  induction n with
  | zero => rfl
  | succ n ih => exact congrArg (c :: ·) ih

/-- It leaves the buffer of `gps_location`. -/
theorem noise_overflows : ¬ StaysInside (fun _ => 0) 256 noise := by
  intro h
  have hbytes : received noise = List.replicate 257 0xFF := received_replicate 257 0xFF
  have hnl : newline ∉ List.replicate 257 (0xFF : Byte) := by
    rw [List.mem_replicate]
    decide
  have hfits := h.length_writes_le
  rw [length_writes_le_iff, hbytes] at hfits
  rcases hfits with hlen | hmem
  · rw [List.length_replicate] at hlen
    omega
  · exact hnl (List.mem_of_mem_take hmem)

end LagoEcosystem.Gps
