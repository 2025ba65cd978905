import Rzh.EndOfFile
import Rzh.PipeStream
import Rzh.Suspend

/-!
# Text behind a transfer

The end scanner keeps what comes behind the end of the transfer, and the destructor of its
task puts it back into the pipe. The scanner's memory grows as it is needed, the pipe's does
not.
-/
namespace Rzh

open Circular Sys

/-- A text without the OO that may stand in front of it. -/
def dropOO (text : List UInt8) : List UInt8 :=
  text.drop (min 2 (text.takeWhile fun c => c = 79).length)

/-- The part of a packet that lies behind the end of the transfer. -/
def behind (s : Sys) (a : Nat) (buf : List UInt8) : List UInt8 :=
  if (s.fifo .masterOutput).proc = some .zfinScan then ((zfinScan (s.zfins a).ref buf).found).getD []
  else buf

/-- Nothing has happened to the end scanner at `a` nor to the proc that it works for. -/
structure Leaves (a : Nat) (s s' : Sys) : Prop where
  proc : (s'.fifo .masterOutput).proc = (s.fifo .masterOutput).proc
  refcon : (s'.fifo .masterOutput).refcon = (s.fifo .masterOutput).refcon
  zfin : s'.zfins a = s.zfins a

/-- The packets that the master sends during a transfer, with the text behind its end, and
between them all that leaves the end scanner alone. -/
inductive Transfer (a : Nat) (s₀ : Sys) : List UInt8 → Sys → Prop where
  | start : Transfer a s₀ [] s₀
  | packet {text buf : List UInt8} {s s' : Sys} {proc : FifoProc} {fd : Int}
    (run : Transfer a s₀ text s) (hproc : (s.fifo .masterOutput).proc = some proc)
    (h : callProc s .masterOutput proc buf fd = .ok s') : Transfer a s₀ (text ++ behind s a buf) s'
  | other {text : List UInt8} {s s' : Sys} (run : Transfer a s₀ text s) (h : Leaves a s s') :
    Transfer a s₀ text s'

/-- The end scanner as rz_create_spec makes it for the output of the master. -/
structure Scanning (a : Nat) (s : Sys) : Prop where
  proc : (s.fifo .masterOutput).proc = some .zfinScan
  refcon : (s.fifo .masterOutput).refcon = .zfin a
  fresh : s.zfins a = zfinCreate .zfinNooo

/-- How far the end scanner has got: it looks for the end, it drops Os, or it saves. -/
structure Collecting (a : Nat) (text : List UInt8) (s : Sys) : Prop where
  refcon : (s.fifo .masterOutput).refcon = .zfin a
  found : (s.zfins a).found = .zfinNooo
  phase :
    (s.fifo .masterOutput).proc = some .zfinScan ∧ text = [] ∧ (s.zfins a).oocount = 0 ∧
        (s.zfins a).savebuf = [] ∨
      (s.fifo .masterOutput).proc = some .zfinNooo ∧ (s.zfins a).oocount ≤ 2 ∧
        text = List.replicate (s.zfins a).oocount 79 ∧ (s.zfins a).savebuf = [] ∨
      (s.fifo .masterOutput).proc = some .zfinSave ∧ dropOO text ≠ [] ∧
        (s.zfins a).savebuf = dropOO text

section DropOO

theorem dropOO_replicate {k : Nat} (hk : k ≤ 2) (buf : List UInt8) :
    dropOO (List.replicate k 79 ++ buf) =
      buf.drop (min (2 - k) (buf.takeWhile fun c => c = 79).length) := by
  have htake : (List.replicate k (79 : UInt8) ++ buf).takeWhile (fun c => c = 79) =
      List.replicate k 79 ++ buf.takeWhile fun c => c = 79 := by
    rw [List.takeWhile_append_of_pos]
    intro c hc
    simpa using List.eq_of_mem_replicate hc
  have hmin : min 2 (k + (buf.takeWhile fun c => c = 79).length) =
      k + min (2 - k) (buf.takeWhile fun c => c = 79).length := by omega
  rw [dropOO, htake, List.length_append, List.length_replicate, hmin, ← List.drop_drop,
    List.drop_left' List.length_replicate]

/-- Once something is left, everything is. -/
theorem dropOO_append {text : List UInt8} (h : dropOO text ≠ []) (buf : List UInt8) :
    dropOO (text ++ buf) = dropOO text ++ buf := by
  have hlt : min 2 (text.takeWhile fun c => c = 79).length < text.length := by
    rw [dropOO, ne_eq, List.drop_eq_nil_iff] at h
    omega
  have hmin : min 2 ((text ++ buf).takeWhile fun c => c = 79).length =
      min 2 (text.takeWhile fun c => c = 79).length := by
    rw [List.takeWhile_append]
    split
    · next hall =>
      rw [List.length_append]
      omega
    · rfl
  rw [dropOO, hmin, List.drop_append_of_le_length (by omega), dropOO]

/-- The loop of zfin_nooo, with what it may still drop. -/
theorem noooLoop_eq (k : Nat) (buf : List UInt8) :
    noooLoop k buf = (k + min (2 - k) (buf.takeWhile fun c => c = 79).length,
      buf.drop (min (2 - k) (buf.takeWhile fun c => c = 79).length)) := by
  induction buf generalizing k with
  | nil => simp [noooLoop]
  | cons c cs ih =>
    rw [noooLoop]
    split
    · next h =>
      obtain hc | hk := h
      · simp [hc]
      · have hzero : 2 - k = 0 := by omega
        simp [hzero]
    · next h =>
      rw [not_or, not_not, Nat.not_le] at h
      obtain ⟨rfl, hk⟩ := h
      have hmin : min (2 - k) ((cs.takeWhile fun c => c = 79).length + 1) =
          min (2 - (k + 1)) (cs.takeWhile fun c => c = 79).length + 1 := by omega
      rw [ih]
      simp only [List.takeWhile_cons, decide_true, if_true, List.length_cons, hmin, List.drop_succ_cons]
      congr 1
      omega

end DropOO

section Collecting

variable {a : Nat} {text buf : List UInt8} {s s' : Sys}

theorem zfinState_eq (h : (s.fifo .masterOutput).refcon = .zfin a) :
    zfinState s .masterOutput = .ok (a, s.zfins a) := by
  rw [zfinState, h]

/-- zfin_save adds the packet to what has been saved. -/
theorem zfinSave_saves (hrefcon : (s.fifo .masterOutput).refcon = .zfin a)
    (h : zfinSave s .masterOutput buf = .ok s') :
    s'.pipes = s.pipes ∧ (s'.zfins a).found = (s.zfins a).found ∧
      (s'.zfins a).savebuf = (s.zfins a).savebuf ++ buf := by
  refine ⟨zfinSave_pipes h, ?_⟩
  rw [zfinSave] at h
  split at h
  · next hnil =>
    cases h
    rw [hnil, List.append_nil]
    exact ⟨rfl, rfl⟩
  · rw [zfinState_eq hrefcon] at h
    obtain ⟨x, hx, h⟩ := Result.bind_ok h
    cases hx
    cases h
    simp [setZfin]

/-- zfin_nooo drops what is left of the OO, and hands on what is left of the packet. -/
theorem zfinNooo_collects (hrefcon : (s.fifo .masterOutput).refcon = .zfin a)
    (hfound : (s.zfins a).found = .zfinNooo) (hproc : (s.fifo .masterOutput).proc = some .zfinNooo)
    (hcount : (s.zfins a).oocount ≤ 2) (hsave : (s.zfins a).savebuf = [])
    (h : zfinNooo s .masterOutput buf = .ok s') :
    Collecting a (List.replicate (s.zfins a).oocount 79 ++ buf) s' := by
  rw [zfinNooo] at h
  split at h
  · next hnil =>
    cases h
    rw [hnil, List.append_nil]
    exact ⟨hrefcon, hfound, .inr (.inl ⟨hproc, hcount, rfl, hsave⟩)⟩
  · rw [zfinState_eq hrefcon] at h
    obtain ⟨x, hx, h⟩ := Result.bind_ok h
    cases hx
    have hdrop := dropOO_replicate hcount buf
    simp only [noooLoop_eq] at h
    generalize hj : min (2 - (s.zfins a).oocount) (buf.takeWhile fun c => c = 79).length = j at h hdrop
    split at h
    · next hrest =>
      -- nothing but Os, and no more than may be dropped
      cases h
      have hlen : buf.length ≤ j := List.drop_eq_nil_iff.mp hrest
      have hwhile := (List.takeWhile_sublist (l := buf) fun c => decide (c = (79 : UInt8))).length_le
      have hj' : j = buf.length := by omega
      have hos : buf = List.replicate j 79 := by
        have hall : buf.takeWhile (fun c => decide (c = (79 : UInt8))) = buf :=
          (List.takeWhile_sublist _).eq_of_length (by omega)
        rw [hj', List.eq_replicate_iff]
        refine ⟨rfl, fun c hc => ?_⟩
        rw [← hall] at hc
        simpa using List.mem_takeWhile_imp hc
      refine ⟨hrefcon, ?_, .inr (.inl ⟨hproc, ?_, ?_, ?_⟩)⟩
      · simp [setZfin, hfound]
      · simp only [setZfin, Function.update_self]
        omega
      · simp only [setZfin, Function.update_self]
        rw [List.replicate_add, ← hos]
      · simp [setZfin, hsave]
    · next hrest =>
      let s₁ := setZfin s a { s.zfins a with oocount := (s.zfins a).oocount + j }
      let s₂ := setProc s₁ .masterOutput (some .zfinSave) (s₁.fifo .masterOutput).refcon
      have hrefcon₂ : (s₂.fifo .masterOutput).refcon = .zfin a := by
        simp only [s₂, setProc, fifo_setFifo]
        exact hrefcon
      have hproc₂ : (s₂.fifo .masterOutput).proc = some .zfinSave := by
        simp only [s₂, setProc, fifo_setFifo]
      have hsave₂ : (s₂.zfins a).savebuf = [] := by
        simp [s₂, s₁, setProc, setZfin, Sys.setFifo, Sys.setPipe, hsave]
      have hfound₂ : (s₂.zfins a).found = .zfinNooo := by
        simp [s₂, s₁, setProc, setZfin, Sys.setFifo, Sys.setPipe, hfound]
      obtain ⟨hpipes, hfound', hsave'⟩ := zfinSave_saves (s := s₂) hrefcon₂ h
      rw [hsave₂, List.nil_append] at hsave'
      refine ⟨?_, hfound'.trans hfound₂, .inr (.inr ⟨?_, ?_, ?_⟩)⟩
      · rw [Sys.fifo, hpipes]
        exact hrefcon₂
      · rw [Sys.fifo, hpipes]
        exact hproc₂
      · rw [hdrop]
        exact hrest
      · rw [hdrop, hsave']

/-- A call of zfin_scan leaves the counts of its state alone, and its proc until the end is
found. -/
theorem zfinScanCall_leaves {f f' : Fifo} {state state' : ZfinScanState} {rest : Option (List UInt8)}
    (h : zfinScanCall f state buf = .ok (f', state', rest)) :
    rest = (zfinScan state.ref buf).found ∧ state' = { state with ref := state'.ref } ∧
      f'.refcon = f.refcon ∧ (rest = none → f'.proc = f.proc) ∧
      (rest ≠ none → f'.proc = some state.found.proc) := by
  rw [zfinScanCall] at h
  simp only at h
  split at h
  · cases h
  · split at h
    · next hnone =>
      cases h
      exact ⟨hnone.symm, rfl, runPuts_refcon f _, fun _ => runPuts_proc f _, fun hne => absurd rfl hne⟩
    · next rest' hsome =>
      cases h
      exact ⟨hsome.symm, rfl, runPuts_refcon f _, fun hnone => (Option.some_ne_none _ hnone).elim,
        fun _ => rfl⟩

/-- Each packet goes where the scanner has got to. -/
theorem Collecting.packet (hc : Collecting a text s) {proc : FifoProc} {fd : Int}
    (hproc : (s.fifo .masterOutput).proc = some proc)
    (h : callProc s .masterOutput proc buf fd = .ok s') :
    Collecting a (text ++ behind s a buf) s' := by
  obtain ⟨hrefcon, hfound, hphase⟩ := hc
  rw [behind]
  obtain ⟨hp, rfl, hcount, hsave⟩ | ⟨hp, hcount, rfl, hsave⟩ | ⟨hp, hne, hsave⟩ := hphase
  · obtain rfl : proc = .zfinScan := Option.some.inj (hproc.symm.trans hp)
    rw [if_pos hp]
    change zfinScanProc s .masterOutput buf = .ok s' at h
    rw [zfinScanProc, zfinState_eq hrefcon] at h
    obtain ⟨x, hx, h⟩ := Result.bind_ok h
    cases hx
    simp only at h
    split at h
    · cases h
    · next f state' rest hcall =>
      obtain ⟨hrest, hstate, hf, hkeep, hinstall⟩ := zfinScanCall_leaves hcall
      let s₁ := (setZfin s a state').setFifo .masterOutput f s.kernel
      have hfifo₁ : s₁.fifo .masterOutput = f := fifo_setFifo _ _ _ _
      have hzfin₁ : s₁.zfins a = state' := by simp [s₁, setZfin, Sys.setFifo, Sys.setPipe]
      have hrefcon₁ : (s₁.fifo .masterOutput).refcon = .zfin a := by rw [hfifo₁, hf, hrefcon]
      have hfound₁ : (s₁.zfins a).found = .zfinNooo := by rw [hzfin₁, hstate, hfound]
      have hcount₁ : (s₁.zfins a).oocount = 0 := by rw [hzfin₁, hstate, hcount]
      have hsave₁ : (s₁.zfins a).savebuf = [] := by rw [hzfin₁, hstate, hsave]
      rw [← hrest, List.nil_append]
      split at h
      · cases h
        refine ⟨hrefcon₁, hfound₁, .inl ⟨?_, rfl, hcount₁, hsave₁⟩⟩
        rw [hfifo₁, hkeep rfl, hp]
      · next rest' =>
        have hproc₁ : (s₁.fifo .masterOutput).proc = some .zfinNooo := by
          rw [hfifo₁, hinstall (Option.some_ne_none _), hfound]
          rfl
        have hfound' : state'.found = .zfinNooo := by rw [← hzfin₁, hfound₁]
        rw [hfound'] at h
        have hcollects := zfinNooo_collects hrefcon₁ hfound₁ hproc₁ (by omega) hsave₁ h
        rw [hcount₁] at hcollects
        exact hcollects
  · obtain rfl : proc = .zfinNooo := Option.some.inj (hproc.symm.trans hp)
    rw [if_neg (by simp [hp])]
    exact zfinNooo_collects hrefcon hfound hp hcount hsave h
  · obtain rfl : proc = .zfinSave := Option.some.inj (hproc.symm.trans hp)
    rw [if_neg (by simp [hp])]
    obtain ⟨hpipes, hfound', hsave'⟩ := zfinSave_saves hrefcon h
    have happend := dropOO_append hne buf
    refine ⟨?_, hfound'.trans hfound, .inr (.inr ⟨?_, ?_, ?_⟩)⟩
    · rw [Sys.fifo, hpipes]
      exact hrefcon
    · rw [Sys.fifo, hpipes]
      exact hp
    · rw [happend]
      exact List.append_ne_nil_of_left_ne_nil hne buf
    · rw [happend, hsave', hsave]

theorem Collecting.leaves (hc : Collecting a text s) (h : Leaves a s s') : Collecting a text s' where
  refcon := by rw [h.refcon, hc.refcon]
  found := by rw [h.zfin, hc.found]
  phase := by
    rw [h.proc, h.zfin]
    exact hc.phase

theorem Scanning.collecting (h : Scanning a s) : Collecting a [] s := by
  refine ⟨h.refcon, ?_, .inl ⟨h.proc, rfl, ?_, ?_⟩⟩
  · rw [h.fresh]
    rfl
  · rw [h.fresh]
    rfl
  · rw [h.fresh]
    rfl

theorem transfer_collecting {s₀ : Sys} (h₀ : Scanning a s₀) (run : Transfer a s₀ text s) :
    Collecting a text s := by
  induction run with
  | start => exact h₀.collecting
  | packet run hproc h ih => exact ih.packet hproc h
  | other run h ih => exact ih.leaves h

/-- What has been saved is the text behind the end without its OO. -/
theorem Collecting.saved (hc : Collecting a text s) : (s.zfins a).savebuf = dropOO text := by
  obtain ⟨-, rfl, -, hsave⟩ | ⟨-, hcount, htext, hsave⟩ | ⟨-, -, hsave⟩ := hc.phase
  · exact hsave
  · have hdrop := dropOO_replicate hcount []
    rw [List.append_nil, ← htext, List.drop_nil] at hdrop
    rw [hdrop, hsave]
  · exact hsave

end Collecting

/-- The bytes of a text that the descriptor does not take at once. Behind queued bytes it is not
asked to take any. -/
def leftOver (fd : Int) (k : Kernel) (queued : Nat) (text : List UInt8) : Nat :=
  text.length - if queued = 0 then ((k.write fd text).1).getD 0 else 0

/-- The kernel, the number of queued bytes and the room behind them. -/
structure Stage where
  kernel : Kernel
  queued : Nat
  room : Nat

/-- What a text that is written makes of them: as much is queued as there is room for. -/
def Stage.write (fd : Int) (g : Stage) (text : List UInt8) : Stage where
  kernel := if g.queued = 0 then (g.kernel.write fd text).2 else g.kernel
  queued := g.queued + min (leftOver fd g.kernel g.queued text) g.room
  room := g.room - min (leftOver fd g.kernel g.queued text) g.room

def stage (s : Sys) : Stage :=
  ⟨s.kernel, fifoCount (s.fifo .masterOutput), fifoAvail (s.fifo .masterOutput)⟩

/-- There is room for all of the text that the descriptor `fd` does not take, behind what is
queued and, unless the program is quiet, behind the status line. -/
def RestFits (fd : Int) (s : Sys) (text : List UInt8) : Prop :=
  let g := if s.optQuiet then stage s else (stage s).write fd s.status.text
  leftOver fd g.kernel g.queued text ≤ g.room

instance (fd : Int) (s : Sys) (text : List UInt8) : Decidable (RestFits fd s text) :=
  inferInstanceAs (Decidable (_ ≤ _))

/-- What a descriptor has accepted, and what is queued behind it. -/
def delivered (fd : Int) (s : Sys) : List UInt8 :=
  written fd s.kernel.trace ++ (s.fifo .masterOutput).contents

/-- Against the state that the status line leaves, the destructor has delivered the text. -/
def Restored (fd : Int) (u : Sys) (text : List UInt8) (s' : Sys) : Prop :=
  ∃ s₁, idleEnd u = .ok s₁ ∧ delivered fd s' = delivered fd s₁ ++ text

/-- The state in which task_remove calls the destructor of `task`. -/
def unstack (s : Sys) (task top : TaskState) (below : List TaskState) : Sys :=
  let s := taskPipeSetup { s with tasks := top :: below } top below
  let s := pipeAtomDestroy s (.read task.addr)
  let s := pipeAtomDestroy s (.write task.addr)
  pipeAtomDestroy s (.err task.addr)

section Destructor

variable {s s' u : Sys} {w : AtomRef} {buf : List UInt8} {total : Nat}

theorem leftOver_immediate (s : Sys) (w : AtomRef) (buf : List UInt8) :
    leftOver (s.atoms w).fd (stage s).kernel (stage s).queued buf =
      buf.length - immediate s .masterOutput w buf := rfl

theorem pipeWrite_total (hw : (s.pipes .masterOutput).writeAtom = some w) (buf : List UInt8) :
    ∃ total s', pipeWrite s .masterOutput buf = .ok (total, s') := by
  have hrest : ∀ k buf n, ∃ total s',
      pipeWriteRest { s with kernel := k } .masterOutput buf n = .ok (total, s') := by
    intro k buf n
    have hok : ({ s with kernel := k } : Sys).writeAtom .masterOutput = .ok w := by
      simp only [Sys.writeAtom, hw]
    rw [pipeWriteRest, hok]
    simp only [bind, Except.bind]
    split
    · exact ⟨_, _, rfl⟩
    · exact ⟨_, _, rfl⟩
  have hok : s.writeAtom .masterOutput = .ok w := by simp only [Sys.writeAtom, hw]
  rw [pipeWrite, hok]
  split
  · simp only [bind, Except.bind]
    generalize s.kernel.write (s.atoms w).fd buf = res
    obtain ⟨cnt, k⟩ := res
    cases cnt with
    | none => exact hrest k buf 0
    | some n => exact hrest k (buf.drop n) n
  · exact hrest s.kernel buf 0

/-- A text that is written is delivered as far as it is accepted, and the room shrinks. -/
theorem pipeWrite_delivered (hw : (s.pipes .masterOutput).writeAtom = some w)
    (h : pipeWrite s .masterOutput buf = .ok (total, s')) :
    delivered (s.atoms w).fd s' = delivered (s.atoms w).fd s ++ buf.take total ∧
      stage s' = (stage s).write (s.atoms w).fd buf ∧
      (buf.take total = buf ↔
        leftOver (s.atoms w).fd (stage s).kernel (stage s).queued buf ≤ (stage s).room) := by
  obtain ⟨w', hw', htotal, hs'⟩ := pipeWrite_ok h
  obtain rfl := Option.some.inj (hw'.symm.trans hw)
  obtain ⟨hn, hsent⟩ := sent_immediate s .masterOutput w' buf
  have hlength : (stored s .masterOutput w' buf).length =
      min (buf.length - immediate s .masterOutput w' buf) (fifoAvail (s.fifo .masterOutput)) := by
    rw [stored, List.length_take, List.length_drop, Nat.min_comm]
  have hstored := Books.stored_length s .masterOutput w' buf
  have hwrite : (stage s).write (s.atoms w').fd buf =
      ⟨afterImmediate s .masterOutput w' buf,
        fifoCount (s.fifo .masterOutput) + (stored s .masterOutput w' buf).length,
        fifoAvail (s.fifo .masterOutput) - (stored s .masterOutput w' buf).length⟩ := by
    rw [hlength, ← leftOver_immediate]
    rfl
  refine ⟨?_, ?_, ?_⟩
  · have hsplit : delivered (s.atoms w').fd s' =
        written (s.atoms w').fd (afterImmediate s .masterOutput w' buf).trace ++
          ((s.fifo .masterOutput).contents ++ stored s .masterOutput w' buf) := by
      rw [delivered]
      obtain ⟨hall, rfl⟩ | ⟨-, rfl⟩ := hs'
      · have hnil : stored s .masterOutput w' buf = [] := by
          rw [stored, hall, List.drop_length, List.take_nil]
        rw [hnil, List.append_nil]
        rfl
      · rw [← fifoUnsafeAppend_contents _ _ hstored]
        simp [Sys.enable, Sys.fifo, Sys.setFifo, Sys.setPipe]
    rw [hsplit, delivered, hsent.written, htotal, Books.take_total]
    simp only [List.append_assoc]
    rw [← List.append_assoc (buf.take _), Books.immediate_comm, List.append_assoc]
  · rw [hwrite]
    obtain ⟨hall, rfl⟩ | ⟨-, rfl⟩ := hs'
    · have hnil : stored s .masterOutput w' buf = [] := by
        rw [stored, hall, List.drop_length, List.take_nil]
      rw [hnil]
      rfl
    · have havail := fifoUnsafeAppend_avail (s.fifo .masterOutput) _ hstored
      have hcount := congrArg List.length (fifoUnsafeAppend_contents (s.fifo .masterOutput) _ hstored)
      rw [List.length_append, Buffer.toList_length, Buffer.toList_length] at hcount
      simp only [stage, Sys.enable, Sys.fifo, Sys.setFifo, Sys.setPipe, Function.update_self,
        fifoCount_eq, fifoAvail_eq] at hcount havail ⊢
      rw [hcount]
      congr 1
      omega
  · have htake : buf.take total = buf ↔ buf.length ≤ total := by
      constructor
      · intro he
        have hle := congrArg List.length he
        rw [List.length_take] at hle
        omega
      · exact List.take_of_length_le
    rw [htake, leftOver_immediate, htotal, hlength]
    change _ ↔ _ ≤ fifoAvail (s.fifo .masterOutput)
    omega

theorem delivered_taskDefaultDestructor (fd : Int) (s : Sys) (spec : TaskSpec) :
    delivered fd (taskDefaultDestructor s spec) = delivered fd s := by
  rw [taskDefaultDestructor_eq, delivered, Kernel.written_closes]
  rfl

/-- idle_end writes its line, unless the program is quiet. -/
theorem idleEnd_stage (hw : (u.pipes .masterOutput).writeAtom = some w) :
    ∃ s₁, idleEnd u = .ok s₁ ∧ Poured .masterOutput w u s₁ ∧
      stage s₁ = if u.optQuiet then stage u else (stage u).write (u.atoms w).fd u.status.text := by
  rw [idleEnd]
  split
  · exact ⟨u, rfl, .refl _ w u, rfl⟩
  · obtain ⟨total, s₁, h₁⟩ := pipeWrite_total hw u.status.text
    rw [h₁]
    exact ⟨s₁, rfl, pipeWrite_poured hw h₁, (pipeWrite_delivered hw h₁).2.1⟩

/-- The destructor delivers what has been saved exactly if it fits. -/
theorem rztDestructorProc_restored {spec : TaskSpec} {a : Nat}
    (hw : (u.pipes .masterOutput).writeAtom = some w) (hrefcon : spec.maoutRefcon = .zfin a) :
    ∃ s', rztDestructorProc u spec = .ok s' ∧
      (Restored (u.atoms w).fd u (u.zfins a).savebuf s' ↔ RestFits (u.atoms w).fd u (u.zfins a).savebuf) := by
  obtain ⟨s₁, h₁, hpoured, hstage⟩ := idleEnd_stage hw
  have hzfins : s₁.zfins = u.zfins := by rw [hpoured.rest]
  have hw₁ : (s₁.pipes .masterOutput).writeAtom = some w := by rw [hpoured.pipe, hw]
  have hrestored : ∀ s', Restored (u.atoms w).fd u (u.zfins a).savebuf s' ↔
      delivered (u.atoms w).fd s' = delivered (u.atoms w).fd s₁ ++ (u.zfins a).savebuf := by
    intro s'
    constructor
    · intro h
      obtain ⟨s₂, h₂, h⟩ := h
      rw [h₁] at h₂
      cases h₂
      exact h
    · exact fun h => ⟨s₁, h₁, h⟩
  have hfits : RestFits (u.atoms w).fd u (u.zfins a).savebuf ↔
      leftOver (u.atoms w).fd (stage s₁).kernel (stage s₁).queued (u.zfins a).savebuf ≤ (stage s₁).room := by
    rw [hstage]
    rfl
  rw [rztDestructorProc, h₁]
  simp only [bind, Except.bind]
  rw [restoreSaved, hrefcon]
  simp only [hzfins, hrestored, hfits]
  by_cases hsave : (u.zfins a).savebuf = []
  · refine ⟨taskDefaultDestructor s₁ spec, by rw [if_pos hsave], ?_⟩
    rw [delivered_taskDefaultDestructor, hsave, leftOver]
    simp
  · obtain ⟨total, s₂, h₂⟩ := pipeWrite_total hw₁ (u.zfins a).savebuf
    obtain ⟨hdelivered, -, htotal⟩ := pipeWrite_delivered hw₁ h₂
    rw [hpoured.atoms] at hdelivered htotal
    refine ⟨taskDefaultDestructor s₂ spec, by rw [if_neg hsave, h₂]; rfl, ?_⟩
    rw [delivered_taskDefaultDestructor, hdelivered, ← htotal, List.append_cancel_left_eq]

end Destructor

section Removal

variable {a : Nat} {text buf : List UInt8} {s s' s₀ : Sys} {task top : TaskState} {below : List TaskState}

theorem taskRemove_eq (h : s.tasks = task :: top :: below) :
    taskRemove s = destruct (unstack s task top below) task.spec := by
  rw [taskRemove, h]
  rfl

theorem pipeAtomDestroy_rest (s : Sys) (b : AtomRef) :
    pipeAtomDestroy s b = { s with io := (pipeAtomDestroy s b).io } := by
  rw [pipeAtomDestroy]
  split <;> rfl

/-- The destructor finds the rings, the scanners and the kernel as the removal found them. -/
theorem destroyAtoms_rest (s : Sys) (n : Nat) :
    ∃ io, pipeAtomDestroy (pipeAtomDestroy (pipeAtomDestroy s (.read n)) (.write n)) (.err n) =
      { s with io := io } := by
  rw [pipeAtomDestroy_rest _ (.err _), pipeAtomDestroy_rest _ (.write _), pipeAtomDestroy_rest _ (.read _)]
  exact ⟨_, rfl⟩

theorem unstack_tasks (s : Sys) (task top : TaskState) (below : List TaskState) :
    (unstack s task top below).tasks = top :: below := by
  let s₁ := taskPipeSetup { s with tasks := top :: below } top below
  obtain ⟨io, hio⟩ := destroyAtoms_rest s₁ task.addr
  have hu : unstack s task top below = { s₁ with io := io } := hio
  have hrest := (taskPipeSetup_splices { s with tasks := top :: below } top below).rest
  rw [hu]
  exact congrArg Sys.tasks hrest

theorem unstack_rest (s : Sys) (task top : TaskState) (below : List TaskState) :
    (∀ b, ((unstack s task top below).atoms b).fd = (s.atoms b).fd) ∧
      (unstack s task top below).zfins = s.zfins ∧
      (unstack s task top below).optQuiet = s.optQuiet ∧
      (unstack s task top below).status = s.status ∧
      stage (unstack s task top below) = stage s ∧
      ((unstack s task top below).pipes .masterOutput).writeAtom = some (.write top.addr) := by
  let s₁ := taskPipeSetup { s with tasks := top :: below } top below
  have hsplice : Splices (readers top below) { s with tasks := top :: below } s₁ :=
    taskPipeSetup_splices _ top below
  have hpipes := (taskPipeSetup_pipes { s with tasks := top :: below } top below).2
  obtain ⟨io, hio⟩ := destroyAtoms_rest s₁ task.addr
  have hu : unstack s task top below = { s₁ with io := io } := hio
  have hrest := hsplice.rest
  refine ⟨fun b => ?_, ?_, ?_, ?_, ?_, ?_⟩
  · rw [hu]
    exact hsplice.fd b
  · rw [hu]
    change s₁.zfins = _
    rw [hrest]
  · rw [hu]
    change s₁.optQuiet = _
    rw [hrest]
  · rw [hu]
    change s₁.status = _
    rw [hrest]
  · have hkernel : s₁.kernel = s.kernel := by rw [hrest]
    rw [hu, stage, stage]
    simp only [Sys.fifo]
    rw [hkernel, hpipes]
    rfl
  · rw [hu]
    change (s₁.pipes _).writeAtom = _
    rw [hpipes]

/-- The end scanner's state and proc as a new task has them. -/
theorem rztaskInstall_scanning (hwf : s.WF) (h : rztaskInstall s = .ok s₀) :
    Scanning (s.fresh + 2) s₀ ∧ ∃ task, s₀.tasks = task :: s.tasks ∧
      task.spec.destructProc = .rzt ∧ task.spec.maoutRefcon = .zfin (s.fresh + 2) := by
  obtain ⟨⟨⟨infd, outfd, errfd, childPid⟩, s₁⟩, hfork, h⟩ := Result.bind_ok h
  obtain ⟨-, -, k, rfl⟩ := forkRzProcess_ok hfork
  let s₂ : Sys := (rzCreateSpec { s with kernel := k } infd outfd errfd childPid).2
  have hs₂ : Filtered .masterOutput s s₂ := ⟨rfl, Nat.le_add_right _ _, fun _ _ => rfl, rfl, rfl⟩
  have hin := taskInstall_ok (hs₂.wf hwf) h
  have hzfins : s₀.zfins = s₂.zfins := by rw [hin.rest]
  have hpipe := hin.masterOutput
  refine ⟨⟨?_, ?_, ?_⟩, ⟨s₂.fresh, (rzCreateSpec { s with kernel := k } infd outfd errfd childPid).1⟩,
    ?_, rfl, rfl⟩
  · rw [Sys.fifo, hpipe]
  · rw [Sys.fifo, hpipe]
  · rw [hzfins]
    exact Function.update_self _ _ _
  · rw [hin.rest]
    rfl

/-- Whatever follows the end of the transfer, and however it is split up, the removal of the task
delivers it exactly if what the descriptor does not take fits behind what is queued. -/
theorem taskRemove_restored_iff (hwf : s.WF) (htasks : s.tasks = top :: below)
    (hinstall : rztaskInstall s = .ok s₀) (run : Transfer (s.fresh + 2) s₀ text s')
    (hkeep : s'.tasks = s₀.tasks) :
    ∃ task s'', s'.tasks = task :: top :: below ∧ taskRemove s' = .ok s'' ∧
      (Restored (s'.atoms (.write top.addr)).fd (unstack s' task top below) (dropOO text) s'' ↔
        RestFits (s'.atoms (.write top.addr)).fd s' (dropOO text)) := by
  obtain ⟨hscanning, task, htask, hrzt, hrefcon⟩ := rztaskInstall_scanning hwf hinstall
  rw [htask, htasks] at hkeep
  have hsaved := (transfer_collecting hscanning run).saved
  obtain ⟨hfd, hzfins, hquiet, hstatus, hstage, hw⟩ := unstack_rest s' task top below
  obtain ⟨s'', hdestruct, hrestored⟩ := rztDestructorProc_restored hw hrefcon
  rw [hfd, hzfins, hsaved] at hrestored
  refine ⟨task, s'', hkeep, ?_, hrestored.trans ?_⟩
  · rw [taskRemove_eq hkeep, destruct, hrzt]
    exact hdestruct
  · rw [RestFits, RestFits, hquiet, hstatus, hstage]

end Removal

section Events

variable {a : Nat} {p : PipeRef} {text buf : List UInt8} {s s' s'' s₀ : Sys}

namespace Leaves

theorem refl (a : Nat) (s : Sys) : Leaves a s s := ⟨rfl, rfl, rfl⟩

theorem trans (h : Leaves a s s') (h' : Leaves a s' s'') : Leaves a s s'' :=
  ⟨h'.proc.trans h.proc, h'.refcon.trans h.refcon, h'.zfin.trans h.zfin⟩

theorem stable (a : Nat) (s : Sys) (p : PipeRef) : Stable p (Leaves a s) where
  flush {s₁ s₂ _ _ _} hs _ h := by
    have hfifo : (s₂.fifo .masterOutput).proc = (s₁.fifo .masterOutput).proc ∧
        (s₂.fifo .masterOutput).refcon = (s₁.fifo .masterOutput).refcon := by
      by_cases hp : PipeRef.masterOutput = p
      · rw [hp]
        exact h.fifo.2
      · rw [fifo_eq (h.other _ hp)]
        exact ⟨rfl, rfl⟩
    exact hs.trans ⟨hfifo.1, hfifo.2, congrFun h.zfins a⟩
  enable hs _ _ := hs.trans ⟨rfl, rfl, rfl⟩
  disable hs _ _ := hs.trans ⟨rfl, rfl, rfl⟩
  block {s₁} hs b := by
    have hfifo : (s₁.setPipe p { s₁.pipes p with blockRead := b }).fifo .masterOutput =
        s₁.fifo .masterOutput := by
      by_cases hp : PipeRef.masterOutput = p
      · rw [hp, Sys.fifo, setPipe_same]
        rfl
      · rw [fifo_eq (setPipe_ne _ _ hp)]
    exact hs.trans ⟨by rw [hfifo], by rw [hfifo], rfl⟩

theorem closeAtom (s : Sys) (b : AtomRef) : Leaves a s (closeAtom s b) := by
  obtain ⟨hpipes, -, hzfins, -⟩ := closeAtom_rest s b
  refine ⟨?_, ?_, ?_⟩
  · rw [Sys.fifo, hpipes, Sys.fifo]
  · rw [Sys.fifo, hpipes, Sys.fifo]
  · rw [hzfins]

end Leaves

/-- fifo_read hands the packet to the proc. -/
theorem fifoRead_callProc {proc : FifoProc} {fd cnt : Int} (hproc : (s.fifo p).proc = some proc)
    (h : fifoRead s p fd = .ok (cnt, s')) :
    ∃ k, (s.kernel.read fd (min (fifoAvail (s.fifo p)) bufsiz)).2 = k ∧
      callProc { s with kernel := k } p proc (arriving s p fd) fd = .ok s' := by
  rw [fifoRead] at h
  rw [arriving]
  generalize s.kernel.read fd (min (fifoAvail (s.fifo p)) bufsiz) = res at h ⊢
  obtain ⟨r, k⟩ := res
  have hproc' : (({ s with kernel := k } : Sys).fifo p).proc = some proc := hproc
  simp only [hproc'] at h
  obtain ⟨s₁, h₁, h⟩ := Result.bind_ok h
  split at h
  · cases h
    exact ⟨k, rfl, h₁⟩
  · cases h
    exact ⟨k, rfl, h₁⟩

/-- A read event of the master hands on a packet and leaves the scanner alone then. -/
theorem Transfer.autoRead {r : AtomRef} {proc : FifoProc} (run : Transfer a s₀ text s)
    (hr : (s.pipes .masterOutput).readAtom = some r)
    (hproc : (s.fifo .masterOutput).proc = some proc) (h : pipeAutoRead s .masterOutput = .ok s') :
    Transfer a s₀ (text ++ behind s a (arriving s .masterOutput (s.atoms r).fd)) s' := by
  obtain ⟨cnt, r', s₁, s₂, hr', -, hfifo, hs₂, h⟩ := pipeAutoRead_steps h
  obtain rfl := Option.some.inj (hr'.symm.trans hr)
  obtain ⟨k, -, hcall⟩ := fifoRead_callProc hproc hfifo
  have hkernel : Leaves a s { s with kernel := k } := ⟨rfl, rfl, rfl⟩
  have hpacket := (run.other hkernel).packet hproc hcall
  have hclose : Leaves a s₁ s₂ := by
    obtain rfl | ⟨r'', -, rfl⟩ := hs₂
    · exact .refl a _
    · exact .closeAtom s₁ r''
  exact hpacket.other ((Leaves.stable a s₁ _).readRest hclose (pipeAutoReadRest_ok h))

/-- A write event leaves the scanner alone. -/
theorem Leaves.autoWrite (h : pipeAutoWrite s p = .ok s') : Leaves a s s' :=
  (Leaves.stable a s p).autoWrite (.refl a s) h

/-- Text of the program itself leaves the scanner alone. -/
theorem Leaves.write {total : Nat} (h : pipeWrite s p buf = .ok (total, s')) : Leaves a s s' := by
  obtain ⟨w, hw, -, hs'⟩ := pipeWrite_ok h
  obtain ⟨-, rfl⟩ | ⟨-, rfl⟩ := hs'
  · exact ⟨rfl, rfl, rfl⟩
  · by_cases hp : PipeRef.masterOutput = p
    · subst hp
      refine ⟨?_, ?_, rfl⟩
      · simp [Sys.enable, Sys.fifo, Sys.setFifo, Sys.setPipe]
      · simp [Sys.enable, Sys.fifo, Sys.setFifo, Sys.setPipe]
    · have hfifo := fifo_eq (setFifo_ne s (fifoUnsafeAppend (s.fifo p) (stored s p w buf))
        (afterImmediate s p w buf) hp)
      exact ⟨congrArg Fifo.proc hfifo, congrArg Fifo.refcon hfifo, rfl⟩

theorem zfinState_ne {b : Nat} {state : ZfinScanState} (hrefcon : (s.fifo p).refcon ≠ .zfin a)
    (h : zfinState s p = .ok (b, state)) : b ≠ a := by
  rw [zfinState] at h
  split at h
  · next b' heq =>
    cases h
    rintro rfl
    exact hrefcon heq
  · cases h

theorem setZfin_other {b : Nat} (h : b ≠ a) (s : Sys) (state : ZfinScanState) :
    (setZfin s b state).zfins a = s.zfins a := by
  simp [setZfin, Function.update_of_ne h.symm]

theorem zfinSave_other (hrefcon : (s.fifo p).refcon ≠ .zfin a) (h : zfinSave s p buf = .ok s') :
    s'.zfins a = s.zfins a := by
  rw [zfinSave] at h
  split at h
  · cases h
    rfl
  · obtain ⟨⟨b, state⟩, hstate, h⟩ := Result.bind_ok h
    cases h
    exact setZfin_other (zfinState_ne hrefcon hstate) s _

theorem zfinNooo_other (hrefcon : (s.fifo p).refcon ≠ .zfin a) (h : zfinNooo s p buf = .ok s') :
    s'.zfins a = s.zfins a := by
  rw [zfinNooo] at h
  split at h
  · cases h
    rfl
  · obtain ⟨⟨b, state⟩, hstate, h⟩ := Result.bind_ok h
    have hne := zfinState_ne hrefcon hstate
    simp only at h
    split at h
    · cases h
      exact setZfin_other hne s _
    · have hsave := zfinSave_other (by
        rw [setProc, fifo_setFifo]
        exact hrefcon) h
      rw [hsave]
      exact setZfin_other hne s _

theorem zfinTerm_other (h : zfinTerm s p = .ok s') : s'.zfins a = s.zfins a := by
  obtain ⟨x, -, h⟩ := Result.bind_ok h
  obtain ⟨s₁, hterm, h⟩ := Result.bind_ok h
  cases h
  rw [taskTerminate] at hterm
  split at hterm
  · cases hterm
  · split at hterm
    · cases hterm
      rfl
    · cases hterm
      rfl

/-- The other end scanner leaves this one alone. -/
theorem callProc_other {proc : FifoProc} {fd : Int} (hscan : proc ≠ .echoScannerFilterProc)
    (hrefcon : (s.fifo p).refcon ≠ .zfin a) (h : callProc s p proc buf fd = .ok s') :
    s'.zfins a = s.zfins a := by
  cases proc with
  | echoScannerFilterProc => exact absurd rfl hscan
  | zfinScan =>
    obtain ⟨⟨b, state⟩, hstate, h⟩ := Result.bind_ok h
    have hne := zfinState_ne hrefcon hstate
    simp only at h
    split at h
    · cases h
    · next f state' rest hcall =>
      obtain ⟨-, -, hf, -, -⟩ := zfinScanCall_leaves hcall
      have hzfin : ((setZfin s b state').setFifo p f s.kernel).zfins a = s.zfins a :=
        setZfin_other hne s state'
      split at h
      · cases h
        exact hzfin
      · split at h
        · rw [zfinNooo_other (by rw [fifo_setFifo, hf]; exact hrefcon) h, hzfin]
        · rw [zfinTerm_other h, hzfin]
  | zfinNooo => exact zfinNooo_other hrefcon h
  | zfinSave => exact zfinSave_other hrefcon h
  | zfinTerm => exact zfinTerm_other h
  | zfinDrop =>
    cases h
    rfl

/-- A read event of the terminal leaves the scanner for the master alone. -/
theorem Leaves.autoRead {proc : FifoProc} (hproc : (s.fifo .inputMaster).proc = some proc)
    (hscan : proc ≠ .echoScannerFilterProc) (hrefcon : (s.fifo .inputMaster).refcon ≠ .zfin a)
    (h : pipeAutoRead s .inputMaster = .ok s') : Leaves a s s' := by
  obtain ⟨cnt, r, s₁, s₂, -, -, hfifo, hs₂, h⟩ := pipeAutoRead_steps h
  obtain ⟨k, -, hcall⟩ := fifoRead_callProc hproc hfifo
  have hother : s₁.pipes .masterOutput = s.pipes .masterOutput := by
    cases callProc_ok (s := { s with kernel := k }) hproc hcall with
    | filtered hf => exact hf.other _ (by decide)
    | started hstart =>
      obtain ⟨-, hscanner, -⟩ := hstart
      exact absurd (Option.some.inj (hproc.symm.trans hscanner)) hscan
  have hpacket : Leaves a s s₁ := by
    refine ⟨?_, ?_, ?_⟩
    · rw [fifo_eq hother]
    · rw [fifo_eq hother]
    · exact callProc_other (s := { s with kernel := k }) hscan hrefcon hcall
  have hclose : Leaves a s₁ s₂ := by
    obtain rfl | ⟨r', -, rfl⟩ := hs₂
    · exact .refl a _
    · exact .closeAtom s₁ r'
  exact (Leaves.stable a s _).readRest (hpacket.trans hclose) (pipeAutoReadRest_ok h)

/-- So many read events of the master, with the text behind the end that they bring. -/
def receive (a : Nat) : Nat → List UInt8 × Sys → Result (List UInt8 × Sys)
  | 0, x => .ok x
  | n + 1, (text, s) => do
    let s' ← pipeAutoRead s .masterOutput
    receive a n (text ++ behind s a (arriving s .masterOutput (s.atoms .master).fd), s')

theorem Collecting.proc_some (hc : Collecting a text s) :
    ∃ proc, (s.fifo .masterOutput).proc = some proc := by
  obtain ⟨hp, -⟩ | ⟨hp, -⟩ | ⟨hp, -⟩ := hc.phase
  · exact ⟨_, hp⟩
  · exact ⟨_, hp⟩
  · exact ⟨_, hp⟩

theorem rztaskInstall_wf (hwf : s.WF) (h : rztaskInstall s = .ok s') : s'.WF := by
  obtain ⟨s₁, spec, h₁, -, h₂⟩ := rztaskInstall_ok .masterOutput h
  exact (taskInstall_ok (h₁.wf hwf) h₂).wf

/-- Read events of the master keep a transfer going. -/
theorem transfer_receive {n : Nat} {x : List UInt8 × Sys} (h₀ : Scanning a s₀) (hwf : s.WF)
    (run : Transfer a s₀ text s) (h : receive a n (text, s) = .ok x) : Transfer a s₀ x.1 x.2 := by
  induction n generalizing text s with
  | zero =>
    cases h
    exact run
  | succ n ih =>
    obtain ⟨s₁, h₁, h⟩ := Result.bind_ok h
    obtain ⟨proc, hproc⟩ := (transfer_collecting h₀ run).proc_some
    exact ih (pipeAutoRead_wf hwf h₁) (run.autoRead hwf.masterOut hproc h₁) h


/-- Whether there are two tasks and they pass a test. -/
def topTwo (s : Sys) (test : TaskState → TaskState → Bool) : Bool :=
  match s.tasks with
  | [task, top] => test task top
  | _ => false

theorem topTwo_tasks {test : TaskState → TaskState → Bool} (h : topTwo s test = true) :
    ∃ task top, s.tasks = [task, top] ∧ test task top = true := by
  rw [topTwo] at h
  split at h
  · next task top htasks => exact ⟨task, top, htasks, h⟩
  · cases h

/-- A transfer that can be played through on top of the echo task. -/
theorem played_transfer (k : Kernel) (n : Nat) (test : List UInt8 → Sys → TaskState → TaskState → Bool)
    (h : ((launch k).passes fun s => (play s [.echoScanner]).passes fun s =>
      (rztaskInstall s).passes fun s₀ => (receive (s.fresh + 2) n ([], s₀)).passes fun x =>
        decide (x.2.tasks = s₀.tasks) && topTwo x.2 (test x.1 x.2)) = true) :
    ∃ s s₀ s₁ text task top, s.WF ∧ s.tasks = [top] ∧ rztaskInstall s = .ok s₀ ∧
      Transfer (s.fresh + 2) s₀ text s₁ ∧ s₁.tasks = s₀.tasks ∧ s₁.tasks = [task, top] ∧
      test text s₁ task top = true := by
  obtain ⟨sl, hl, h⟩ := Result.ok_of_passes h
  obtain ⟨s, hs, h⟩ := Result.ok_of_passes h
  obtain ⟨s₀, hinstall, h⟩ := Result.ok_of_passes h
  obtain ⟨⟨text, s₁⟩, hreceive, h⟩ := Result.ok_of_passes h
  rw [Bool.and_eq_true] at h
  obtain ⟨hkeep, h⟩ := h
  obtain ⟨task, top, htasks, htest⟩ := topTwo_tasks h
  have hwf : s.WF := mainRun_wf (launch_ok hl).1 (play_run .start hs)
  obtain ⟨hscanning, task', hcons, -⟩ := rztaskInstall_scanning hwf hinstall
  have hrun := transfer_receive hscanning (rztaskInstall_wf hwf hinstall) .start hreceive
  have htop : s.tasks = [top] := by
    rw [of_decide_eq_true hkeep, hcons] at htasks
    exact (List.cons.inj htasks).2
  exact ⟨s, s₀, s₁, text, task, top, hwf, htop, hinstall, hrun, of_decide_eq_true hkeep, htasks, htest⟩

end Events

/-- The kernel under a transfer that ends with one long line, and under a terminal and a child
that take nothing. -/
def longTail : Kernel where
  reads := [.data 42 (zfinText.drop 1), .data 120 (List.replicate 5000 120),
    .data 120 (List.replicate 5000 120)]
  writes := []
  forks := [.child (7, 8) (9, 10) (11, 12) 99]
  errno := none
  trace := []

/-- The pipe has no room for all of the line. -/
theorem longTail_lost : ∃ s s₀ s₁ s₂ text task top below, s.WF ∧ s.tasks = top :: below ∧
    rztaskInstall s = .ok s₀ ∧ Transfer (s.fresh + 2) s₀ text s₁ ∧
    s₁.tasks = task :: top :: below ∧ taskRemove s₁ = .ok s₂ ∧
    ¬ Restored (s₁.atoms (.write top.addr)).fd (unstack s₁ task top below) (dropOO text) s₂ := by
  obtain ⟨s, s₀, s₁, text, task, top, hwf, htop, hinstall, hrun, -, htasks, htest⟩ :=
    played_transfer longTail 3 (fun text s task top => (taskRemove s).passes fun s₂ =>
      (idleEnd (unstack s task top [])).passes fun u =>
        (delivered (s.atoms (.write top.addr)).fd s₂).length <
          (delivered (s.atoms (.write top.addr)).fd u ++ dropOO text).length) (by decide +kernel)
  obtain ⟨s₂, hremove, htest⟩ := Result.ok_of_passes htest
  obtain ⟨u, hidle, htest⟩ := Result.ok_of_passes htest
  refine ⟨s, s₀, s₁, s₂, text, task, top, [], hwf, htop, hinstall, hrun, htasks, hremove, ?_⟩
  intro h
  obtain ⟨u', hidle', hrestored⟩ := h
  obtain rfl : u' = u := Except.ok.inj (hidle'.symm.trans hidle)
  have hlt := of_decide_eq_true htest
  rw [hrestored] at hlt
  exact Nat.lt_irrefl _ hlt

/-- A prompt follows the transfer, behind an O that goes with it. -/
theorem taskRemove_restored_iff_prompt : ∃ s₁ s₂ task top, s₁.tasks = [task, top] ∧
    taskRemove s₁ = .ok s₂ ∧
    Restored (s₁.atoms (.write top.addr)).fd (unstack s₁ task top []) [36, 32] s₂ := by
  obtain ⟨s, s₀, s₁, text, task, top, hwf, htop, hinstall, hrun, hkeep, htasks, htest⟩ :=
    played_transfer { longTail with reads := [.data 42 (zfinText.drop 1), .data 79 [36], .data 32 []] } 3
      (fun text s task top => RestFits (s.atoms (.write top.addr)).fd s (dropOO text) ∧
        dropOO text = [36, 32]) (by decide +kernel)
  obtain ⟨hfits, htext⟩ := of_decide_eq_true htest
  obtain ⟨task', s₂, htasks', hremove, hiff⟩ := taskRemove_restored_iff hwf htop hinstall hrun hkeep
  obtain ⟨rfl, -⟩ := List.cons.inj (htasks.symm.trans htasks')
  have hrestored := hiff.mpr hfits
  rw [htext] at hrestored
  exact ⟨s₁, s₂, task, top, htasks, hremove, hrestored⟩

end Rzh
