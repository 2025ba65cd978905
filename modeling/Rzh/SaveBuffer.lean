import Rzh.CMemory
import Rzh.Restore

/-!
# The memory behind zfin_save

The text behind the end of a transfer in the block and the three ints that the source keeps for it:
the block grows by more than is needed, and what it holds stays where it is.
-/
namespace Rzh

open Circular Sys

structure SaveState where
  oocount : Int
  savebuf : List UInt8
  savemax : Int
  savecnt : Int
  deriving DecidableEq, Repr

inductive SaveProc where
  | zfinNooo | zfinSave
  deriving DecidableEq, Repr

/-- A fifo with one of the two procs that keep its text back, and the state in its refcon. -/
structure Saver where
  fifo : Buffer UInt8
  proc : SaveProc
  state : SaveState

/-- What ends the program, or what no program may do. -/
inductive SaveFail where
  | bail (status : Int)
  | outside
  deriving DecidableEq, Repr

/-- The state after the memset of zfin_create. -/
def saveCreate : SaveState := ⟨0, [], 0, 0⟩

namespace Saver

/-- The block is made larger if the packet does not fit into what is left of it. -/
def grow (state : SaveState) (size : Int) (memory : Option (Nat → UInt8)) : Except SaveFail SaveState :=
  if wrapInt (size + state.savecnt) > state.savemax then
    let savemax := wrapInt (state.savemax + wrapInt (size + 512))
    (realloc state.savebuf savemax memory).elim (.error (.bail 57)) fun savebuf =>
      .ok { state with savemax := savemax, savebuf := savebuf }
  else .ok state

def zfinSave (s : Saver) (buf : List UInt8) (size : Int) (memory : Option (Nat → UInt8)) :
    Except SaveFail Saver :=
  if size ≤ 0 then .ok s
  else do
    let state ← grow s.state size memory
    (memcpy state.savebuf state.savecnt buf size).elim (.error .outside) fun savebuf =>
      .ok { s with state := { state with savebuf := savebuf, savecnt := wrapInt (state.savecnt + size) } }

def zfinNooo (s : Saver) : List UInt8 → Int → Option (Nat → UInt8) → Except SaveFail Saver
  | [], size, _ => if 0 < size then .error .outside else .ok s
  | c :: cs, size, memory =>
    if size ≤ 0 then .ok s
    else if c ≠ 79 ∨ 2 ≤ s.state.oocount then { s with proc := .zfinSave }.zfinSave (c :: cs) size memory
    else zfinNooo { s with state := { s.state with oocount := wrapInt (s.state.oocount + 1) } } cs (size - 1)
      memory

end Saver

/-- A call of the proc: `size` characters of `buf`, and what realloc would find if it were called. -/
structure SaveCall where
  buf : List UInt8
  size : Int
  memory : Option (Nat → UInt8)
  fits : size ≤ buf.length

namespace SaveCall

/-- The characters of the packet. -/
def text (c : SaveCall) : List UInt8 := c.buf.take c.size.toNat

end SaveCall

/-- (*f->proc)(f, buf, size, fd) -/
def Saver.call (s : Saver) (c : SaveCall) : Except SaveFail Saver :=
  match s.proc with
  | .zfinNooo => s.zfinNooo c.buf c.size c.memory
  | .zfinSave => s.zfinSave c.buf c.size c.memory

def Saver.calls (s : Saver) : List SaveCall → Except SaveFail Saver
  | [] => .ok s
  | c :: cs => do
    let s ← s.call c
    s.calls cs

/-- All that the calls hand over. -/
def savedText (cs : List SaveCall) : List UInt8 := cs.flatMap SaveCall.text

/-- How the three ints and the block go together when `saved` has been saved. The bound on savemax is
what keeps the growth from running over. -/
structure SaveState.Holds (saved : List UInt8) (state : SaveState) : Prop where
  block : (state.savebuf.length : Int) = state.savemax
  inside : state.savecnt ≤ state.savemax
  bounded : state.savemax ≤ 2 * state.savecnt + 511
  count : state.savecnt = saved.length
  saved : state.savebuf.take state.savecnt.toNat = saved

/-- The text that has come is either some Os, of which none is kept, or what it leaves is saved. -/
structure Saver.Keeps (text : List UInt8) (s : Saver) : Prop where
  holds : s.state.Holds (dropOO text)
  phase : s.proc = .zfinNooo ∧ (∃ k : Nat, k ≤ 2 ∧ s.state.oocount = k ∧ text = List.replicate k 79) ∨
    s.proc = .zfinSave ∧ dropOO text ≠ []

section Steps

variable {text saved buf : List UInt8} {size : Int} {memory : Option (Nat → UInt8)} {state : SaveState}
  {s : Saver}

theorem saveCreate_holds : saveCreate.Holds [] := ⟨rfl, Int.le_refl 0, by decide, rfl, rfl⟩

theorem Saver.create_keeps (fifo : Buffer UInt8) : (Saver.mk fifo .zfinNooo saveCreate).Keeps [] :=
  ⟨saveCreate_holds, .inl ⟨rfl, 0, Nat.zero_le 2, rfl, rfl⟩⟩

/-- Once there is room for the packet, the block still holds what has been saved. -/
theorem SaveState.Holds.grow (h : state.Holds saved) (memory : Option (Nat → UInt8)) (hsize : 0 < size)
    (htotal : saved.length + size < 0x40000000) :
    (Saver.grow state size memory = .error (.bail 57) ∧ memory = none) ∨
      ∃ state', Saver.grow state size memory = .ok state' ∧
        (state'.savebuf.length : Int) = state'.savemax ∧ state.savecnt + size ≤ state'.savemax ∧
        state'.savemax ≤ 2 * (state.savecnt + size) + 511 ∧ state'.savecnt = state.savecnt ∧
        state'.savebuf.take state.savecnt.toNat = saved := by
  have hblock := h.block
  have hinside := h.inside
  have hbounded := h.bounded
  have hcount := h.count
  have hneed : wrapInt (size + state.savecnt) = size + state.savecnt :=
    wrapInt_of_range (by omega) (by omega)
  rw [Saver.grow, hneed]
  by_cases hroom : size + state.savecnt > state.savemax
  · have hmore : wrapInt (size + 512) = size + 512 := wrapInt_of_range (by omega) (by omega)
    have hmax : wrapInt (state.savemax + (size + 512)) = state.savemax + (size + 512) :=
      wrapInt_of_range (by omega) (by omega)
    rw [if_pos hroom, hmore, hmax]
    cases hnew : realloc state.savebuf (state.savemax + (size + 512)) memory with
    | none =>
      left
      simp only [hnew, Option.elim_none]
      exact ⟨trivial, realloc_none (by omega) hnew⟩
    | some new =>
      right
      have hkeep : new.take state.savecnt.toNat = state.savebuf.take state.savecnt.toNat :=
        realloc_take hnew (by omega) (by omega)
      simp only [hnew, Option.elim_some]
      refine ⟨_, rfl, realloc_length hnew, ?_, ?_, rfl, ?_⟩
      · show _ ≤ state.savemax + (size + 512)
        omega
      · show state.savemax + (size + 512) ≤ _
        omega
      · rw [hkeep, h.saved]
  · right
    rw [if_neg hroom]
    exact ⟨state, rfl, hblock, by omega, by omega, rfl, h.saved⟩

/-- zfin_save puts the packet behind what it has saved. -/
theorem SaveState.Holds.zfinSave (h : s.state.Holds saved) (memory : Option (Nat → UInt8)) (hsize : 0 < size)
    (hbuf : size ≤ buf.length) (htotal : saved.length + size < 0x40000000) :
    (s.zfinSave buf size memory = .error (.bail 57) ∧ memory = none) ∨
      ∃ s', s.zfinSave buf size memory = .ok s' ∧ s'.fifo = s.fifo ∧ s'.proc = s.proc ∧
        s'.state.Holds (saved ++ buf.take size.toNat) := by
  have hcount := h.count
  rw [Saver.zfinSave, if_neg (by omega)]
  obtain ⟨hgrow, hmemory⟩ | ⟨state', hgrow, hblock, hroom, hbounded, hcnt, hsaved⟩ :=
    h.grow memory hsize htotal
  · left
    rw [hgrow]
    exact ⟨rfl, hmemory⟩
  · right
    have hcopy : memcpy state'.savebuf state'.savecnt buf size = some _ :=
      memcpy_inside (by omega) (by omega) (by omega) hbuf
    have hadd : wrapInt (state'.savecnt + size) = state'.savecnt + size :=
      wrapInt_of_range (by omega) (by omega)
    rw [hgrow]
    show ∃ s', (memcpy state'.savebuf state'.savecnt buf size).elim _ _ = Except.ok s' ∧ _
    rw [hcopy, hadd, hcnt, hsaved]
    have htaken : (buf.take size.toNat).length = size.toNat := by
      rw [List.length_take]
      omega
    have hlength : (saved ++ buf.take size.toNat).length = saved.length + size.toNat := by
      rw [List.length_append, htaken]
    refine ⟨_, rfl, rfl, rfl, ?_⟩
    constructor
    · show ((saved ++ buf.take size.toNat ++
        state'.savebuf.drop (s.state.savecnt.toNat + size.toNat)).length : Int) = state'.savemax
      rw [List.length_append, hlength, List.length_drop]
      omega
    · show s.state.savecnt + size ≤ state'.savemax
      omega
    · show state'.savemax ≤ 2 * (s.state.savecnt + size) + 511
      omega
    · show s.state.savecnt + size = _
      rw [hlength]
      omega
    · show (saved ++ buf.take size.toNat ++
        state'.savebuf.drop (s.state.savecnt.toNat + size.toNat)).take (s.state.savecnt + size).toNat = _
      rw [List.take_append_of_le_length (by omega), List.take_of_length_le (by omega)]

theorem dropOO_few {k : Nat} (hk : k ≤ 2) : dropOO (List.replicate k 79) = [] := by
  have h := dropOO_replicate hk []
  rw [List.append_nil] at h
  rw [h]
  exact List.drop_nil

theorem dropOO_length_le (text : List UInt8) : (dropOO text).length ≤ text.length := by
  rw [dropOO, List.length_drop]
  omega

/-- An O that is dropped is counted. -/
theorem Saver.Keeps.counted (h : s.Keeps text) (hproc : s.proc = .zfinNooo) (hfew : ¬ 2 ≤ s.state.oocount) :
    { s with state := { s.state with oocount := wrapInt (s.state.oocount + 1) } }.Keeps (text ++ [79]) := by
  obtain ⟨-, k, hk, hcount, rfl⟩ | ⟨hother, -⟩ := h.phase
  · have hnext : wrapInt (s.state.oocount + 1) = k + 1 := by
      rw [hcount]
      exact wrapInt_of_range (by omega) (by omega)
    have hk' : k + 1 ≤ 2 := by omega
    have hholds := h.holds
    rw [dropOO_few hk] at hholds
    rw [hnext, ← List.replicate_succ']
    refine ⟨?_, .inl ⟨hproc, k + 1, hk', rfl, rfl⟩⟩
    rw [dropOO_few hk']
    exact ⟨hholds.block, hholds.inside, hholds.bounded, hholds.count, hholds.saved⟩
  · rw [hproc] at hother
    cases hother

/-- The rest of the packet is saved as soon as it has something that is not dropped. -/
theorem Saver.Keeps.handsOver (h : s.Keeps text) (hproc : s.proc = .zfinNooo) {c : UInt8}
    (cs : List UInt8) (hstop : c ≠ 79 ∨ 2 ≤ s.state.oocount) :
    dropOO (text ++ c :: cs) = dropOO text ++ c :: cs ∧ dropOO (text ++ c :: cs) ≠ [] := by
  obtain ⟨-, k, hk, hcount, rfl⟩ | ⟨hother, -⟩ := h.phase
  · have hnone : min (2 - k) ((c :: cs).takeWhile fun c => c = 79).length = 0 := by
      obtain hc | htwo := hstop
      · rw [List.takeWhile_cons_of_neg (by simpa using hc), List.length_nil, Nat.min_zero]
      · omega
    rw [dropOO_replicate hk, hnone, dropOO_few hk]
    exact ⟨rfl, List.cons_ne_nil c cs⟩
  · rw [hproc] at hother
    cases hother

/-- zfin_nooo drops Os as long as it may, and hands on what it does not drop. -/
theorem Saver.Keeps.zfinNooo (h : s.Keeps text) (hproc : s.proc = .zfinNooo) (hbuf : size ≤ buf.length)
    (htotal : (text ++ buf.take size.toNat).length < 0x40000000) :
    (s.zfinNooo buf size memory = .error (.bail 57) ∧ memory = none) ∨
      ∃ s', s.zfinNooo buf size memory = .ok s' ∧ s'.fifo = s.fifo ∧
        s'.Keeps (text ++ buf.take size.toNat) := by
  induction buf generalizing s text size with
  | nil =>
    right
    rw [List.length_nil] at hbuf
    rw [Saver.zfinNooo, if_neg (by omega)]
    refine ⟨s, rfl, rfl, ?_⟩
    rw [List.take_nil, List.append_nil]
    exact h
  | cons c cs ih =>
    rw [Saver.zfinNooo]
    by_cases hempty : size ≤ 0
    · right
      rw [if_pos hempty]
      refine ⟨s, rfl, rfl, ?_⟩
      have hzero : size.toNat = 0 := by omega
      rw [hzero, List.take_zero, List.append_nil]
      exact h
    · obtain ⟨n, rfl⟩ : ∃ n : Nat, size = n + 1 := ⟨size.toNat - 1, by omega⟩
      have hsucc : ((n : Int) + 1).toNat = n + 1 := by omega
      rw [if_neg hempty]
      rw [hsucc, List.take_succ_cons] at htotal ⊢
      by_cases hstop : c ≠ 79 ∨ 2 ≤ s.state.oocount
      · rw [if_pos hstop]
        obtain ⟨hleft, hrest⟩ := h.handsOver hproc (cs.take n) hstop
        have hsize : (0 : Int) < n + 1 := by omega
        have hlength : (dropOO text).length + ((n : Int) + 1) < 0x40000000 := by
          have hle := dropOO_length_le text
          rw [List.length_append, List.length_cons, List.length_take] at htotal
          rw [List.length_cons] at hbuf
          omega
        have hholds : { s with proc := .zfinSave }.state.Holds (dropOO text) := h.holds
        have hsave := hholds.zfinSave memory hsize hbuf hlength
        obtain hfail | ⟨s', hs', hfifo, hproc', hholds⟩ := hsave
        · left
          exact hfail
        · right
          rw [hsucc, List.take_succ_cons, ← hleft] at hholds
          exact ⟨s', hs', hfifo, hholds, .inr ⟨hproc', hrest⟩⟩
      · rw [if_neg hstop]
        rw [not_or, not_not] at hstop
        obtain ⟨rfl, hfew⟩ := hstop
        have hcounted := h.counted hproc hfew
        have hback : ((n : Int) + 1 - 1) = n := by omega
        rw [List.append_cons] at htotal ⊢
        rw [hback]
        rw [List.length_cons] at hbuf
        exact ih hcounted hproc (by omega) htotal

/-- One call, whatever the size of its packet. -/
theorem Saver.Keeps.call (h : s.Keeps text) (c : SaveCall)
    (htotal : (text ++ c.text).length < 0x40000000) :
    (s.call c = .error (.bail 57) ∧ c.memory = none) ∨
      ∃ s', s.call c = .ok s' ∧ s'.fifo = s.fifo ∧ s'.Keeps (text ++ c.text) := by
  rw [Saver.call]
  obtain ⟨hproc, -⟩ | ⟨hproc, hsome⟩ := h.phase
  · simp only [hproc]
    exact h.zfinNooo hproc c.fits htotal
  · simp only [hproc]
    by_cases hempty : c.size ≤ 0
    · right
      have hnone : c.text = [] := by
        have hzero : c.size.toNat = 0 := by omega
        rw [SaveCall.text, hzero, List.take_zero]
      rw [Saver.zfinSave, if_pos hempty, hnone, List.append_nil]
      exact ⟨s, rfl, rfl, h⟩
    · have hkept : dropOO (text ++ c.text) = dropOO text ++ c.text := dropOO_append hsome c.text
      have hlength : (dropOO text).length + c.size < 0x40000000 := by
        have hle := dropOO_length_le text
        have hfits := c.fits
        rw [SaveCall.text, List.length_append, List.length_take] at htotal
        omega
      obtain hfail | ⟨s', hs', hfifo, hproc', hholds⟩ :=
        h.holds.zfinSave c.memory (by omega) c.fits hlength
      · left
        exact hfail
      · right
        rw [← SaveCall.text, ← hkept] at hholds
        refine ⟨s', hs', hfifo, hholds, .inr ⟨hproc'.trans hproc, ?_⟩⟩
        rw [hkept]
        exact List.append_ne_nil_of_left_ne_nil hsome c.text

/-- A run of calls comes to its end unless there is no memory left. -/
theorem Saver.Keeps.calls (h : s.Keeps text) (cs : List SaveCall)
    (htotal : (text ++ savedText cs).length < 0x40000000) :
    (s.calls cs = .error (.bail 57) ∧ ∃ c ∈ cs, c.memory = none) ∨
      ∃ s', s.calls cs = .ok s' ∧ s'.fifo = s.fifo ∧ s'.Keeps (text ++ savedText cs) := by
  induction cs generalizing s text with
  | nil =>
    right
    rw [savedText, List.flatMap_nil, List.append_nil]
    exact ⟨s, rfl, rfl, h⟩
  | cons c cs ih =>
    have hsplit : text ++ savedText (c :: cs) = text ++ c.text ++ savedText cs := by
      rw [savedText, List.flatMap_cons, List.append_assoc, savedText]
    rw [hsplit] at htotal ⊢
    have hfirst : (text ++ c.text).length < 0x40000000 := by
      rw [List.length_append] at htotal
      omega
    rw [Saver.calls]
    obtain ⟨hfail, hmemory⟩ | ⟨s₁, hs₁, hfifo₁, hkeeps⟩ := h.call c hfirst
    · left
      rw [hfail]
      exact ⟨rfl, c, List.mem_cons_self, hmemory⟩
    · rw [hs₁]
      obtain ⟨hfail, c', hc', hmemory⟩ | ⟨s', hs', hfifo, hkeeps'⟩ := ih hkeeps htotal
      · left
        exact ⟨hfail, c', List.mem_cons_of_mem c hc', hmemory⟩
      · right
        exact ⟨s', hs', hfifo.trans hfifo₁, hkeeps'⟩

end Steps

/-- Installed by zfin_scan, the two procs keep all of the text but the OO in front of it, whatever the
packets; nothing goes into the fifo, no byte is copied to a place outside the block, and only a lack of
memory ends the program. -/
theorem Saver.calls_save (fifo : Buffer UInt8) (cs : List SaveCall)
    (htotal : (savedText cs).length < 0x40000000) :
    (∀ fail, (Saver.mk fifo .zfinNooo saveCreate).calls cs = .error fail →
        fail = .bail 57 ∧ ∃ c ∈ cs, c.memory = none) ∧
      ∀ s, (Saver.mk fifo .zfinNooo saveCreate).calls cs = .ok s →
        s.fifo = fifo ∧ s.state.savecnt = (dropOO (savedText cs)).length ∧
          s.state.savebuf.take s.state.savecnt.toNat = dropOO (savedText cs) ∧
          s.state.savecnt ≤ s.state.savemax ∧ (s.state.savebuf.length : Int) = s.state.savemax := by
  obtain ⟨hfail, hmemory⟩ | ⟨s', hs', hfifo, hkeeps⟩ := (Saver.create_keeps fifo).calls cs htotal
  · rw [hfail]
    constructor
    · intro fail h
      cases h
      exact ⟨rfl, hmemory⟩
    · nofun
  · rw [hs']
    constructor
    · nofun
    · intro s h
      cases h
      have hholds := hkeeps.holds
      exact ⟨hfifo, hholds.count, hholds.saved, hholds.inside, hholds.block⟩

/-- The O and the OO of two packets, with calls that bring nothing between them. -/
def overAndOut : List SaveCall :=
  [⟨[79], 1, none, by decide⟩, ⟨[79, 79], -1, none, by decide⟩, ⟨[79, 79, 36], 3, some fun _ => 0, by decide⟩,
    ⟨[], 0, none, by decide⟩, ⟨[32, 7], 1, none, by decide⟩]

theorem Saver.calls_save_overAndOut :
    ∃ s, (Saver.mk (fifoInit 8 (by decide)).toBuffer .zfinNooo saveCreate).calls overAndOut = .ok s ∧
      s.state.savebuf.take s.state.savecnt.toNat = [79, 36, 32] := by
  have htotal : (savedText overAndOut).length < 0x40000000 := by decide
  have hsome : ((Saver.mk (fifoInit 8 (by decide)).toBuffer .zfinNooo saveCreate).calls
      overAndOut).toOption.isSome = true := by decide +kernel
  obtain ⟨-, hok⟩ := Saver.calls_save (fifoInit 8 (by decide)).toBuffer overAndOut htotal
  cases h : (Saver.mk (fifoInit 8 (by decide)).toBuffer .zfinNooo saveCreate).calls overAndOut with
  | error fail =>
    rw [h] at hsome
    cases hsome
  | ok s =>
    exact ⟨s, rfl, (hok s h).2.2.1⟩

/-- The block holds what the system's scanner has saved of the same text, however that has come. -/
theorem transfer_block {a : Nat} {s₀ sys : Sys} {s : Saver} {fifo : Buffer UInt8} {cs : List SaveCall}
    (h₀ : Scanning a s₀) (run : Transfer a s₀ (savedText cs) sys)
    (htotal : (savedText cs).length < 0x40000000)
    (h : (Saver.mk fifo .zfinNooo saveCreate).calls cs = .ok s) :
    s.state.savebuf.take s.state.savecnt.toNat = (sys.zfins a).savebuf := by
  obtain ⟨hfail, -⟩ | ⟨s', hs', -, hkeeps⟩ := (Saver.create_keeps fifo).calls cs htotal
  · rw [hfail] at h
    cases h
  · rw [hs'] at h
    cases h
    rw [hkeeps.holds.saved, (transfer_collecting h₀ run).saved]
    rfl

/-- The text behind the end of a transfer, in two packets. -/
def promptCalls : List SaveCall :=
  [⟨[79, 36], 2, some fun _ => 0, by decide⟩, ⟨[32], 1, some fun _ => 0, by decide⟩]

/-- A prompt follows the transfer, behind an O that goes with it. -/
theorem transfer_block_prompt : ∃ a s₀ sys s, Transfer a s₀ (savedText promptCalls) sys ∧
    (Saver.mk (fifoInit 8 (by decide)).toBuffer .zfinNooo saveCreate).calls promptCalls = .ok s ∧
      (sys.zfins a).savebuf = [36, 32] ∧ s.state.savebuf.take s.state.savecnt.toNat = (sys.zfins a).savebuf := by
  obtain ⟨s₁, s₀, sys, text, task, top, hwf, -, hinstall, hrun, -, -, htest⟩ :=
    played_transfer { longTail with reads := [.data 42 (zfinText.drop 1), .data 79 [36], .data 32 []] } 3
      (fun text _ _ _ => text = savedText promptCalls) (by decide +kernel)
  obtain rfl := of_decide_eq_true htest
  have hscanning := (rztaskInstall_scanning hwf hinstall).1
  have hsome : ((Saver.mk (fifoInit 8 (by decide)).toBuffer .zfinNooo saveCreate).calls
      promptCalls).toOption.isSome = true := by decide +kernel
  cases h : (Saver.mk (fifoInit 8 (by decide)).toBuffer .zfinNooo saveCreate).calls promptCalls with
  | error fail =>
    rw [h] at hsome
    cases hsome
  | ok s =>
    have hsaved : (sys.zfins (s₁.fresh + 2)).savebuf = [36, 32] := (transfer_collecting hscanning hrun).saved
    exact ⟨_, s₀, sys, s, hrun, rfl, hsaved, transfer_block hscanning hrun (by decide) h⟩

end Rzh
