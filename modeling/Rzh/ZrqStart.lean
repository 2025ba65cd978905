import Rzh.ZrqRounds

/-!
# The start of a transfer

zscan_start empties the fifo with writes of its own before it invokes the start proc.
The two drain procs are one loop, and a drain that takes too long ends the program.
-/
namespace Rzh

open Circular

/-- A loop that writes to `fd` until the fifo is as wanted. After the last of the
`tries` writes it bails, whatever that write has achieved. -/
def drainLoop (done : Fifo → Bool) (fd : Int) :
    Nat → Fifo → Kernel → Except (Halt × Fifo × Kernel) (Fifo × Kernel)
  | 0, f, k => .error (.bail 33, f, k)
  | tries + 1, f, k =>
    if done f then .ok (f, k)
    else
      let (_, f, k) := fifoWrite f fd k
      drainLoop done fd tries f k

def fifoDrainCompletely (f : Fifo) (fd : Int) (k : Kernel) :
    Except (Halt × Fifo × Kernel) (Fifo × Kernel) :=
  drainLoop (fun f => fifoCount f = 0) fd 5 f k

def fifoDrainAvail (f : Fifo) (fd : Int) (minNeeded : Nat) (k : Kernel) :
    Except (Halt × Fifo × Kernel) (Fifo × Kernel) :=
  drainLoop (fun f => minNeeded ≤ fifoAvail f) fd 5 f k

/-- The string "**\030B00" that zscan_start puts in place of what the scanner withheld. -/
def startString : List UInt8 := [chStar, chStar, chCan, chB, ch0, ch0]

/-- zscan_start as far as the start proc. -/
def zscanPrepare (f : Fifo) (fd : Int) (k : Kernel) :
    Except (Halt × Fifo × Kernel) (Fifo × Kernel) :=
  match fifoDrainCompletely f fd k with
  | .error e => .error e
  | .ok (f, k) => .ok (fifoUnsafeAppend f startString, k)

/-- zscan_start behind the start proc: room for what is left of the packet. -/
def zscanMakeRoom (f : Fifo) (fd : Int) (remaining : Nat) (k : Kernel) :
    Except (Halt × Fifo × Kernel) (Fifo × Kernel) :=
  if fifoAvail f < remaining then fifoDrainAvail f fd remaining k else .ok (f, k)

/-- What a call of the scanner comes to when it returns or, with the rest of the packet
in `started`, invokes the start proc. -/
structure ZrqCall where
  fifo : Fifo
  conn : ZScanState
  kernel : Kernel
  started : Option (List UInt8)

/-- zrq_scan on the fifo it is called for. -/
def zrqScanCall (f : Fifo) (conn : ZScanState) (buf : List UInt8) (fd : Int) (k : Kernel) :
    Except (Halt × Fifo × Kernel) ZrqCall :=
  let o := zrqScan conn buf
  let f := runPuts f o.puts
  match o.start with
  | none => .ok ⟨f, o.conn, k, none⟩
  | some rest =>
    match zscanPrepare f fd k with
    | .error e => .error e
    | .ok (f, k) => .ok ⟨f, o.conn, k, some rest⟩

/-- echo_scanner_filter_proc: an error or the end of the file is not scanned. -/
def echoScannerCall (f : Fifo) (conn : ZScanState) (buf : List UInt8) (fd : Int) (k : Kernel) :
    Except (Halt × Fifo × Kernel) ZrqCall :=
  if buf = [] then .ok ⟨f, conn, k, none⟩ else zrqScanCall f conn buf fd k

/-- A drain moves bytes from the front of the ring to `fd` and does nothing else, whether
it succeeds or bails. -/
theorem drainLoop_wrote (done : Fifo → Bool) (fd : Int) (tries : Nat) (f : Fifo) (k : Kernel) :
    ∃ sent f' k', Wrote fd sent f f' k k' ∧
      (drainLoop done fd tries f k = .ok (f', k') ∧ done f' = true ∨
        drainLoop done fd tries f k = .error (.bail 33, f', k')) := by
  induction tries generalizing f k with
  | zero => exact ⟨[], f, k, .nothing f (.refl fd k), .inr rfl⟩
  | succ tries ih =>
    rw [drainLoop]
    split
    · next h => exact ⟨[], f, k, .nothing f (.refl fd k), .inl ⟨rfl, h⟩⟩
    · obtain ⟨sent, hw, -⟩ := fifoWrite_wrote f fd k
      obtain ⟨sent', f', k', hw', h⟩ := ih (fifoWrite f fd k).2.1 (fifoWrite f fd k).2.2
      exact ⟨sent ++ sent', f', k', hw.trans hw', h⟩

/-- So many calls of fifo_write. -/
def fifoWrites (fd : Int) : Nat → Fifo → Kernel → Fifo × Kernel
  | 0, f, k => (f, k)
  | n + 1, f, k => fifoWrites fd n (fifoWrite f fd k).2.1 (fifoWrite f fd k).2.2

/-- The last write of a drain comes too late. -/
theorem drainLoop_cases (done : Fifo → Bool) (fd : Int) (n : Nat) (f : Fifo) (k : Kernel) :
    ((∃ j ≤ n, done (fifoWrites fd j f k).1 = true) ∧
      ∃ r, drainLoop done fd (n + 1) f k = .ok r) ∨
    ((¬ ∃ j ≤ n, done (fifoWrites fd j f k).1 = true) ∧
      ∃ f' k', drainLoop done fd (n + 1) f k = .error (.bail 33, f', k')) := by
  induction n generalizing f k with
  | zero =>
    rw [drainLoop]
    split
    · next h => exact .inl ⟨⟨0, Nat.le_refl 0, h⟩, _, rfl⟩
    · next h =>
      refine .inr ⟨?_, _, _, rfl⟩
      rintro ⟨j, hj, hdone⟩
      obtain rfl : j = 0 := by omega
      exact h hdone
  | succ n ih =>
    rw [drainLoop]
    split
    · next h => exact .inl ⟨⟨0, Nat.zero_le _, h⟩, _, rfl⟩
    · next h =>
      rcases ih (fifoWrite f fd k).2.1 (fifoWrite f fd k).2.2 with ⟨⟨j, hj, hdone⟩, hr⟩ | ⟨hno, hr⟩
      · exact .inl ⟨⟨j + 1, by omega, hdone⟩, hr⟩
      · refine .inr ⟨?_, hr⟩
        rintro ⟨j, hj, hdone⟩
        cases j with
        | zero => exact h hdone
        | succ j => exact hno ⟨j, by omega, hdone⟩

/-- The kernel takes all that is queued in no more than four calls of fifo_write. -/
def Empties (fd : Int) (f : Fifo) (k : Kernel) : Prop :=
  ∃ j ≤ 4, (fifoWrites fd j f k).1.contents = []

theorem fifoDrainCompletely_cases (f : Fifo) (fd : Int) (k : Kernel) :
    (Empties fd f k ∧ ∃ f' k', fifoDrainCompletely f fd k = .ok (f', k') ∧ f'.contents = [] ∧
      Wrote fd f.contents f f' k k') ∨
    (¬ Empties fd f k ∧ ∃ sent f' k', fifoDrainCompletely f fd k = .error (.bail 33, f', k') ∧
      Wrote fd sent f f' k k') := by
  have hiff : ∀ f : Fifo, decide (fifoCount f = 0) = true ↔ f.contents = [] := by
    intro f
    rw [decide_eq_true_iff, Fifo.contents, Buffer.toList_eq_nil_iff]
    rfl
  have hcases := drainLoop_cases (fun f => fifoCount f = 0) fd 4 f k
  obtain ⟨sent, f', k', hw, h⟩ := drainLoop_wrote (fun f => fifoCount f = 0) fd 5 f k
  simp only [hiff] at hcases h
  rcases hcases with ⟨he, r, hr⟩ | ⟨he, f₂, k₂, hr⟩
  · left
    rw [hr] at h
    rcases h with ⟨h, hempty⟩ | h
    · have hsent : f.contents = sent := by rw [hw.contents, hempty, List.append_nil]
      exact ⟨he, f', k', hr.trans h, hempty, hsent ▸ hw⟩
    · cases h
  · right
    rw [hr] at h
    rcases h with ⟨h, -⟩ | h
    · cases h
    · exact ⟨he, sent, f', k', hr.trans h, hw⟩

theorem zscanPrepare_cases (f : Fifo) (fd : Int) (k : Kernel) :
    (Empties fd f k ∧ ∃ f' k', zscanPrepare f fd k = .ok (f', k')) ∨
    (¬ Empties fd f k ∧ ∃ f' k', zscanPrepare f fd k = .error (.bail 33, f', k')) := by
  unfold zscanPrepare
  obtain ⟨he, f', k', hr, -⟩ | ⟨he, -, f', k', hr, -⟩ := fifoDrainCompletely_cases f fd k
  · exact .inl ⟨he, _, _, by rw [hr]⟩
  · exact .inr ⟨he, _, _, by rw [hr]⟩

/-- Room is made or there is none to be had; without need nothing is written. -/
theorem zscanMakeRoom_wrote (f : Fifo) (fd : Int) (remaining : Nat) (k : Kernel) :
    ∃ sent f' k', Wrote fd sent f f' k k' ∧
      (zscanMakeRoom f fd remaining k = .ok (f', k') ∧ remaining ≤ fifoAvail f' ∨
        zscanMakeRoom f fd remaining k = .error (.bail 33, f', k')) := by
  unfold zscanMakeRoom
  split
  · obtain ⟨sent, f', k', hw, ⟨he, hdone⟩ | he⟩ :=
      drainLoop_wrote (fun f => remaining ≤ fifoAvail f) fd 5 f k
    · exact ⟨sent, f', k', hw, .inl ⟨he, of_decide_eq_true hdone⟩⟩
    · exact ⟨sent, f', k', hw, .inr he⟩
  · exact ⟨[], f, k, .nothing f (.refl fd k), .inl ⟨rfl, by omega⟩⟩

end Rzh
