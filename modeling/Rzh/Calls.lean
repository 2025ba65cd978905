import Rzh.Program
import Rzh.Restore

/-!
# The calls of a stretch

What a stretch does to the descriptors, up to its end, whichever it is: where its bytes go to,
what it closes and whether it forks.
-/
namespace Rzh

open Circular Sys

/-- From `s` to `s'` there have been `n` forks, all bytes have gone to descriptors that `W` is true
of, and `fds` have been closed. -/
def Does (W : Int → Prop) (n : Nat) (fds : List Int) (s s' : Sys) : Prop :=
  s'.kernel.forks = s.kernel.forks.drop n ∧ ∃ calls, s'.kernel.trace = s.kernel.trace ++ calls ∧
    (∀ fd ∈ receivers calls, W fd) ∧ closings calls = fds

/-- What has been done to the descriptors from one state to another. -/
def newCalls (s s' : Sys) : List Call := s'.kernel.trace.drop s.kernel.trace.length

namespace Does

variable {W : Int → Prop} {n n' : Nat} {fds fds' : List Int} {fd : Int} {s s' s'' : Sys}

theorem of_kernel (h : s'.kernel = s.kernel) : Does W 0 [] s s' := by
  refine ⟨by rw [h, List.drop_zero], [], by rw [h, List.append_nil], ?_, rfl⟩
  intro fd hfd
  cases hfd

theorem refl (W : Int → Prop) (s : Sys) : Does W 0 [] s s := of_kernel rfl

theorem trans (h : Does W n fds s s') (h' : Does W n' fds' s' s'') :
    Does W (n + n') (fds ++ fds') s s'' := by
  obtain ⟨hforks, calls, htrace, hto, hclosed⟩ := h
  obtain ⟨hforks', calls', htrace', hto', hclosed'⟩ := h'
  refine ⟨by rw [hforks', hforks, List.drop_drop], calls ++ calls', ?_, ?_, ?_⟩
  · rw [htrace', htrace, List.append_assoc]
  · intro fd hfd
    rw [receivers_append] at hfd
    obtain hfd | hfd := List.mem_append.mp hfd
    · exact hto fd hfd
    · exact hto' fd hfd
  · rw [closings_append, hclosed, hclosed']

/-- Nothing but one call that is no write has been made. -/
theorem log (s : Sys) {c : Call} (hc : receivers [c] = []) :
    Does W 0 (closings [c]) s { s with kernel := s.kernel.log c } := by
  refine ⟨rfl, [c], rfl, ?_, rfl⟩
  intro fd hfd
  rw [hc] at hfd
  cases hfd

theorem close (s : Sys) (fd : Int) : Does W 0 [fd] s (s.close fd) := log s rfl

theorem closes (s : Sys) (fds : List Int) :
    Does W 0 fds s { s with kernel := s.kernel.closes fds } := by
  induction fds generalizing s with
  | nil => exact refl W s
  | cons fd fds ih => exact (close s fd).trans (ih (s.close fd))

theorem closeAtom (s : Sys) (a : AtomRef) : Does W 0 [(s.atoms a).fd] s (Rzh.closeAtom s a) := by
  obtain ⟨-, -, -, hkernel⟩ := closeAtom_rest s a
  have h : Does W 0 [(s.atoms a).fd] s (s.close (s.atoms a).fd) := close s _
  exact h.trans (.of_kernel hkernel)

theorem kills (h : Kills s s') : Does W 0 [] s s' := by
  obtain h | ⟨pid, h⟩ := h
  · exact .of_kernel h
  · have hkill : Does W 0 [] s { s with kernel := s.kernel.log (.kill pid) } := log s rfl
    exact hkill.trans (.of_kernel h)

theorem sent {bytes : List UInt8} (hfd : 0 ≤ fd → W fd) (h : Sent fd bytes s.kernel s'.kernel) :
    Does W 0 [] s s' := by
  obtain ⟨chunks, hb, htrace⟩ := h.trace
  refine ⟨h.forks, chunks.map (Call.write fd), htrace, ?_, Sent.closings_chunks fd chunks⟩
  intro fd' hfd'
  rw [Sent.receivers_chunks, hb] at hfd'
  obtain ⟨hne, rfl⟩ := List.mem_replicate.mp hfd'
  apply hfd
  by_contra hneg
  rw [h.closed (Int.not_le.mp hneg)] at hne
  exact hne rfl

theorem read (s : Sys) (fd : Int) (cnt : Nat) :
    Does W 0 [] s { s with kernel := (s.kernel.read fd cnt).2 } := by
  have hquiet : ∀ calls, receivers calls = [] → closings calls = [] →
      (s.kernel.read fd cnt).2.trace = s.kernel.trace ++ calls →
      (s.kernel.read fd cnt).2.forks = s.kernel.forks →
      Does W 0 [] s { s with kernel := (s.kernel.read fd cnt).2 } := by
    intro calls hto hclosed htrace hforks
    refine ⟨hforks, calls, htrace, ?_, hclosed⟩
    intro fd hfd
    rw [hto] at hfd
    cases hfd
  generalize hres : s.kernel.read fd cnt = res at hquiet ⊢
  rw [Kernel.read] at hres
  split at hres
  · subst hres
    exact hquiet [] rfl rfl (by rw [List.append_nil]) rfl
  · split at hres
    · subst hres
      exact hquiet [] rfl rfl (by rw [List.append_nil]) rfl
    · subst hres
      exact hquiet _ rfl rfl rfl rfl
    · subst hres
      exact hquiet _ rfl rfl rfl rfl

end Does

/-- The ends of its pipes that are the next child's. -/
def Kernel.childEnds (k : Kernel) : List Int :=
  match k.forks with
  | .child chstdin chstdout chstderr _ :: _ => [chstdin.1, chstdout.2, chstderr.2]
  | _ => []

/-- What a filter proc does: it may fork, and then the child's ends are closed. -/
def MayFork (W : Int → Prop) (s s' : Sys) : Prop :=
  Does W 0 [] s s' ∨ Does W 1 s.kernel.childEnds s s'

/-- No atom is touched, and no task comes or goes. -/
structure Untouched (s s' : Sys) : Prop where
  atoms : s'.atoms = s.atoms
  connections : s'.io.connections = s.io.connections
  tasks : s'.tasks = s.tasks
  fresh : s.fresh ≤ s'.fresh
  ends : ∀ p, (s'.pipes p).readAtom = (s.pipes p).readAtom ∧ (s'.pipes p).writeAtom = (s.pipes p).writeAtom
  st : s'.stMasterFd = s.stMasterFd ∧ s'.stSlaveFd = s.stSlaveFd

/-- Nor is a descriptor closed. -/
structure Keeps (W : Int → Prop) (s s' : Sys) : Prop extends Untouched s s' where
  does : Does W 0 [] s s'

/-- An atom in the place `a` of a pipe is closed, or nothing is. -/
inductive Shuts (W : Int → Prop) (a : Option AtomRef) (s : Sys) : Sys → Prop where
  | keeps {s' : Sys} (h : Keeps W s s') : Shuts W a s s'
  | shuts {b : AtomRef} {s₁ s' : Sys} (h : Keeps W s s₁) (hb : a = some b) (hl : s₁.live b)
    (h' : Keeps W (closeAtom s₁ b) s') : Shuts W a s s'

section Stretches

variable {W : Int → Prop} {p : PipeRef} {a : Option AtomRef} {s s' s'' : Sys} {buf : List UInt8} {fd : Int}

theorem Does.childEnds (h : Does W 0 [] s s') : s'.kernel.childEnds = s.kernel.childEnds := by
  rw [Kernel.childEnds, Kernel.childEnds, h.1, List.drop_zero]

theorem MayFork.after (h : Does W 0 [] s s') (h' : MayFork W s' s'') : MayFork W s s'' := by
  obtain h' | h' := h'
  · exact .inl (h.trans h')
  · rw [h.childEnds] at h'
    exact .inr (h.trans h')

theorem MayFork.then (h : MayFork W s s') (h' : Does W 0 [] s' s'') : MayFork W s s'' := by
  obtain h | h := h
  · exact .inl (h.trans h')
  · have htrans := h.trans h'
    rw [List.append_nil] at htrans
    exact .inr htrans

theorem Untouched.refl (s : Sys) : Untouched s s := ⟨rfl, rfl, rfl, Nat.le_refl _, fun _ => ⟨rfl, rfl⟩, rfl, rfl⟩

theorem Untouched.trans (h : Untouched s s') (h' : Untouched s' s'') : Untouched s s'' where
  atoms := h'.atoms.trans h.atoms
  connections := h'.connections.trans h.connections
  tasks := h'.tasks.trans h.tasks
  fresh := h.fresh.trans h'.fresh
  ends p := ⟨(h'.ends p).1.trans (h.ends p).1, (h'.ends p).2.trans (h.ends p).2⟩
  st := ⟨h'.st.1.trans h.st.1, h'.st.2.trans h.st.2⟩

theorem Untouched.setPipe (s : Sys) {p : PipeRef} {x : Pipe} (hr : x.readAtom = (s.pipes p).readAtom)
    (hw : x.writeAtom = (s.pipes p).writeAtom) : Untouched s (s.setPipe p x) := by
  have hshape := shape_setPipe s p x hr hw
  refine ⟨rfl, rfl, rfl, Nat.le_refl _, fun q => ⟨?_, ?_⟩, rfl, rfl⟩
  · exact congrFun (congrArg Shape.readAtom hshape) q
  · exact congrFun (congrArg Shape.writeAtom hshape) q

theorem Untouched.setFifo (s : Sys) (p : PipeRef) (f : Fifo) (k : Kernel) : Untouched s (s.setFifo p f k) := by
  have hends := (Untouched.setPipe s (p := p) (x := { s.pipes p with fifo := f }) rfl rfl).ends
  exact ⟨rfl, rfl, rfl, Nat.le_refl _, hends, rfl, rfl⟩

theorem Untouched.filtered (h : Filtered p s s') : Untouched s s' := by
  refine ⟨h.sameAtoms.atoms, by rw [h.sameAtoms.io], h.tasks, h.fresh, h.ends, ?_, ?_⟩
  · rw [h.rest]
  · rw [h.rest]

/-- Nothing has changed but the kernel and the atoms, and those have not either. -/
theorem Untouched.of_rest {k : Kernel} {io : IoSelect} {atoms : AtomRef → Atom}
    (hrest : s' = { s with kernel := k, io := io, atoms := atoms }) (h : SameAtoms s s') : Untouched s s' := by
  refine ⟨h.atoms, by rw [h.io], ?_, ?_, fun p => ⟨?_, ?_⟩, ?_, ?_⟩
  · rw [hrest]
  · rw [hrest]
  · rw [hrest]
  · rw [hrest]
  · rw [hrest]
  · rw [hrest]

theorem closeAtom_only (s : Sys) (a : AtomRef) : closeAtom s a =
    { s with kernel := (closeAtom s a).kernel, io := (closeAtom s a).io, atoms := (closeAtom s a).atoms } := by
  rw [closeAtom, pipeAtomDestroy]
  split <;> rfl

theorem Untouched.wf (h : Untouched s s') (hwf : s.WF) : s'.WF where
  held a ha := by
    rw [h.tasks] at ha
    intro hl
    rw [Sys.live, h.atoms] at hl
    obtain ⟨hn, hle, hc⟩ := hwf.held a ha hl
    rw [h.atoms]
    exact ⟨hn, hle, by rw [h.connections, hc]⟩
  below t ht := by
    rw [h.tasks] at ht
    exact Nat.lt_of_lt_of_le (hwf.below t ht) h.fresh
  nodup := by
    rw [h.tasks]
    exact hwf.nodup
  inUse p a ha := by
    rw [(h.ends p).1, (h.ends p).2] at ha
    rw [h.tasks]
    exact hwf.inUse p a ha
  masterIn := by rw [(h.ends _).2, hwf.masterIn]
  masterOut := by rw [(h.ends _).1, hwf.masterOut]
  top t below he := by
    rw [h.tasks] at he
    rw [(h.ends _).1, (h.ends _).2]
    exact hwf.top t below he

theorem Keeps.refl (W : Int → Prop) (s : Sys) : Keeps W s s := ⟨.refl s, .refl W s⟩

theorem Keeps.trans (h : Keeps W s s') (h' : Keeps W s' s'') : Keeps W s s'' :=
  ⟨h.toUntouched.trans h'.toUntouched, h.does.trans h'.does⟩

/-- Calls that do something to the kernel alone. -/
theorem Keeps.kernel {k : Kernel} (h : Does W 0 [] s { s with kernel := k }) :
    Keeps W s { s with kernel := k } :=
  ⟨⟨rfl, rfl, rfl, Nat.le_refl _, fun _ => ⟨rfl, rfl⟩, rfl, rfl⟩, h⟩

theorem Keeps.setPipe (W : Int → Prop) (s : Sys) {p : PipeRef} {x : Pipe}
    (hr : x.readAtom = (s.pipes p).readAtom) (hw : x.writeAtom = (s.pipes p).writeAtom) :
    Keeps W s (s.setPipe p x) :=
  ⟨.setPipe s hr hw, .of_kernel rfl⟩

theorem Keeps.setFifo {f : Fifo} {k : Kernel} (h : Does W 0 [] s { s with kernel := k }) :
    Keeps W s (s.setFifo p f k) :=
  ⟨.setFifo s p f k, h⟩

theorem Keeps.enable (W : Int → Prop) (s : Sys) (a : AtomRef) (flags : List Interest) :
    Keeps W s (s.enable a flags) :=
  ⟨⟨rfl, ioEnable_connections, rfl, Nat.le_refl _, fun _ => ⟨rfl, rfl⟩, rfl, rfl⟩, .of_kernel rfl⟩

theorem Keeps.disable (W : Int → Prop) (s : Sys) (a : AtomRef) (flags : List Interest) :
    Keeps W s (s.disable a flags) :=
  ⟨⟨rfl, ioDisable_connections, rfl, Nat.le_refl _, fun _ => ⟨rfl, rfl⟩, rfl, rfl⟩, .of_kernel rfl⟩

theorem Shuts.then (h : Shuts W a s s') (h' : Keeps W s' s'') : Shuts W a s s'' := by
  cases h with
  | keeps h => exact .keeps (h.trans h')
  | shuts h hb hl h₁ => exact .shuts h hb hl (h₁.trans h')

theorem Shuts.tasks (h : Shuts W a s s') : s'.tasks = s.tasks := by
  cases h with
  | keeps h => exact h.tasks
  | @shuts b s₁ _ h _ _ h' => exact (h'.tasks.trans (congrArg Shape.tasks (shape_closeAtom s₁ b))).trans h.tasks

theorem Shuts.does (h : Shuts W a s s') : ∃ fds, Does W 0 fds s s' := by
  cases h with
  | keeps h => exact ⟨_, h.does⟩
  | @shuts b s₁ _ h _ _ h' => exact ⟨_, (h.does.trans (.closeAtom s₁ b)).trans h'.does⟩

theorem forkRzProcess_does (s : Sys) :
    Result.Ends Prod.snd (Does W 1 s.kernel.childEnds s) (forkRzProcess s) := by
  have hnothing : ∀ fds, fds = [] → ∀ k : Kernel, k.forks = s.kernel.forks.drop 1 →
      k.trace = s.kernel.trace → Does W 1 fds s { s with kernel := k } := by
    intro fds hfds k hforks htrace
    refine ⟨hforks, [], by rw [List.append_nil]; exact htrace, ?_, hfds.symm⟩
    intro fd hfd
    cases hfd
  rw [forkRzProcess]
  split
  · next hforks =>
    apply hnothing _ _ s.kernel _ rfl
    · rw [Kernel.childEnds, hforks]
    · rw [hforks]
      rfl
  · next val forks hforks =>
    apply hnothing _ _ { s.kernel with forks := forks } _ rfl
    · rw [Kernel.childEnds, hforks]
    · rw [hforks]
      rfl
  · next chstdin chstdout chstderr pid forks hforks =>
    have hends : s.kernel.childEnds = [(chstdin.1 : Int), (chstdout.2 : Int), (chstderr.2 : Int)] := by
      rw [Kernel.childEnds, hforks]
    rw [hends]
    let s₁ : Sys := { s with kernel := { s.kernel with forks := forks } }
    have h₁ : Does W 1 [] s s₁ := by
      apply hnothing [] rfl { s.kernel with forks := forks } _ rfl
      rw [hforks]
      rfl
    exact ((h₁.trans (.close s₁ _)).trans (.close _ _)).trans (.close _ _)

theorem rztaskInstall_does (s : Sys) :
    Result.Ends id (Does W 1 s.kernel.childEnds s) (rztaskInstall s) := by
  apply (forkRzProcess_does s).bind
  intro x _ h₁
  obtain ⟨⟨infd, outfd, errfd, childPid⟩, s₁⟩ := x
  let spec := (rzCreateSpec s₁ infd outfd errfd childPid).1
  apply (taskInstall_kernel (rzCreateSpec s₁ infd outfd errfd childPid).2 spec).mono
  intro s' h
  have htrans := h₁.trans (Does.of_kernel (W := W) h)
  rw [List.append_nil] at htrans
  exact htrans

/-- Every proc writes to the descriptor that it is called for, if at all. -/
theorem callProc_does {proc : FifoProc} (hscan : proc ≠ .echoScannerFilterProc) (s : Sys)
    (p : PipeRef) (buf : List UInt8) (fd : Int) :
    Result.Ends id (Does W 0 [] s) (callProc s p proc buf fd) :=
  (callProc_kills hscan s p buf fd).mono fun _ h => .kills h

theorem zscanRemaining_does (hfd : 0 ≤ fd → W fd) (s : Sys) (p : PipeRef) (buf : List UInt8) :
    Result.Ends id (Does W 0 [] s) (zscanRemaining s p buf fd) := by
  rw [zscanRemaining]
  split
  · exact Does.refl W s
  · obtain ⟨sent, f, k, hw, ⟨he, -⟩ | he⟩ := zscanMakeRoom_wrote (s.fifo p) fd buf.length s.kernel
    · have h₁ : Does W 0 [] s (s.setFifo p f k) := .sent hfd hw.sent
      have hproc : ∀ proc, proc ≠ .echoScannerFilterProc →
          Result.Ends id (Does W 0 [] s) (callProc (s.setFifo p f k) p proc buf fd) := by
        intro proc hscan
        exact (callProc_does hscan (s.setFifo p f k) p buf fd).mono fun _ h => h₁.trans h
      rw [he]
      simp only
      split
      · exact hproc .zfinScan (by simp)
      · exact hproc .zfinNooo (by simp)
      · exact hproc .zfinSave (by simp)
      · exact hproc .zfinTerm (by simp)
      · exact hproc .zfinDrop (by simp)
      · exact h₁
      · exact h₁
    · rw [he]
      exact Does.sent hfd hw.sent

theorem echoScannerCall_sent (f : Fifo) (conn : ZScanState) (buf : List UInt8) (fd : Int) (k : Kernel) :
    (∃ halt f' k' sent, echoScannerCall f conn buf fd k = .error (halt, f', k') ∧ Sent fd sent k k') ∨
      ∃ c sent, echoScannerCall f conn buf fd k = .ok c ∧ Sent fd sent k c.kernel := by
  rw [echoScannerCall]
  split
  · exact .inr ⟨_, [], rfl, .refl fd k⟩
  · rw [zrqScanCall]
    split
    · exact .inr ⟨_, [], rfl, .refl fd k⟩
    · rw [zscanPrepare]
      obtain ⟨-, f', k', he, -, hw⟩ | ⟨-, sent, f', k', he, hw⟩ :=
        fifoDrainCompletely_cases (runPuts f (zrqScan conn buf).puts) fd k
      · rw [he]
        exact .inr ⟨_, _, rfl, hw.sent⟩
      · rw [he]
        exact .inl ⟨_, _, _, _, rfl, hw.sent⟩

theorem echoScannerFilterProc_does (hfd : 0 ≤ fd → W fd) (s : Sys) (p : PipeRef) (buf : List UInt8) :
    Result.Ends id (MayFork W s) (echoScannerFilterProc s p buf fd) := by
  rw [echoScannerFilterProc]
  split
  · exact Or.inl (Does.refl W s)
  · split
    · next addr _ =>
      obtain ⟨halt, f, k, sent, he, hs⟩ | ⟨c, sent, he, hs⟩ :=
        echoScannerCall_sent (s.fifo p) (s.zscans addr) buf fd s.kernel
      · rw [he]
        exact Or.inl (Does.sent hfd hs)
      · rw [he]
        simp only
        let s₀ : Sys := { s with zscans := Function.update s.zscans addr c.conn }
        have h₁ : Does W 0 [] s (s₀.setFifo p c.fifo c.kernel) := .sent hfd hs
        split
        · exact Or.inl h₁
        · next rest _ =>
          let s₂ : Sys := { s₀.setFifo p c.fifo c.kernel with kernel := c.kernel.log .startProc }
          have h₂ : Does W 0 [] s s₂ := h₁.trans (.log _ rfl)
          apply ((rztaskInstall_does s₂).mono fun _ h => MayFork.after h₂ (.inr h)).bind
          intro s₃ _ h₃
          exact (zscanRemaining_does hfd s₃ p rest).mono fun _ h => h₃.then h
    · exact Or.inl (Does.refl W s)

theorem fifoRead_does (hfd : 0 ≤ fd → W fd) (s : Sys) (p : PipeRef) :
    Result.Ends Prod.snd (MayFork W s) (fifoRead s p fd) := by
  have hread : Does W 0 [] s { s with kernel := (s.kernel.read fd (min (fifoAvail (s.fifo p)) bufsiz)).2 } :=
    .read s fd _
  rw [fifoRead]
  generalize s.kernel.read fd (min (fifoAvail (s.fifo p)) bufsiz) = res at hread ⊢
  obtain ⟨r, k⟩ := res
  simp only
  split
  · next proc _ =>
    have hproc : Result.Ends id (MayFork W s) (callProc { s with kernel := k } p proc (r.getD []) fd) := by
      by_cases hscan : proc = .echoScannerFilterProc
      · subst hscan
        exact (echoScannerFilterProc_does hfd { s with kernel := k } p _).mono fun _ h => h.after hread
      · exact (callProc_does hscan { s with kernel := k } p _ fd).mono fun _ h => .inl (hread.trans h)
    apply hproc.bind
    intro s₁ _ h₁
    split
    · exact h₁
    · exact h₁
  · split
    · exact Or.inl (hread.trans (.of_kernel rfl))
    · exact Or.inl hread

/-- Only an open descriptor can have lost its reader. -/
theorem fifoWrite_epipe {f f' : Fifo} {k k' : Kernel} (h : fifoWrite f fd k = (-1, f', k'))
    (hepipe : k'.errno = some .epipe) : 0 ≤ fd := by
  by_contra hfd
  have hblock : ∀ len, fifoWriteBlock f fd len k = (none, f, { k with errno := some .ebadf }) := by
    intro len
    rw [fifoWriteBlock, Kernel.write, if_pos (Int.not_le.mp hfd)]
  rw [fifoWrite, hblock, hblock] at h
  split at h
  · cases h
    cases hepipe
  · split at h
    · cases h
      cases hepipe
    · cases h

theorem writeAtom_ends (s : Sys) (p : PipeRef) {P : Sys → Prop} (h : P s) :
    Result.Ends (fun _ => s) P (s.writeAtom p) := by
  rw [Sys.writeAtom]
  split
  · exact h
  · exact h

theorem readAtom_ends (s : Sys) (p : PipeRef) {P : Sys → Prop} (h : P s) :
    Result.Ends (fun _ => s) P (s.readAtom p) := by
  rw [Sys.readAtom]
  split
  · exact h
  · exact h

theorem pipeFifoWrite_shuts (hW : ∀ w, (s.pipes p).writeAtom = some w → 0 ≤ (s.atoms w).fd → W (s.atoms w).fd) :
    Result.Ends Prod.snd (Shuts W (s.pipes p).writeAtom s) (pipeFifoWrite s p) := by
  apply (writeAtom_ends s p (.keeps (.refl W s))).bind
  intro w hw _
  have hw := writeAtom_ok hw
  obtain ⟨sent, hwrote, -⟩ := fifoWrite_wrote (s.fifo p) (s.atoms w).fd s.kernel
  generalize hres : fifoWrite (s.fifo p) (s.atoms w).fd s.kernel = res at hwrote ⊢
  obtain ⟨cnt, f, k⟩ := res
  have hkeeps : Keeps W s (s.setFifo p f k) := .setFifo (.sent (hW w hw) hwrote.sent)
  by_cases hclose : cnt = -1 ∧ k.errno = some .epipe
  · have hcount : ¬ 0 < cnt := by omega
    simp only [if_pos hclose, if_neg hcount]
    obtain ⟨rfl, hepipe⟩ := hclose
    exact Shuts.shuts hkeeps hw (fifoWrite_epipe hres hepipe) (.refl W _)
  · simp only [if_neg hclose]
    split
    · exact Shuts.keeps (hkeeps.trans (.setPipe W _ rfl rfl))
    · exact Shuts.keeps hkeeps

theorem pipeAutoReadRest_shuts (hW : ∀ w, (s.pipes p).writeAtom = some w → 0 ≤ (s.atoms w).fd → W (s.atoms w).fd) :
    Result.Ends id (Shuts W (s.pipes p).writeAtom s) (pipeAutoReadRest s p) := by
  rw [pipeAutoReadRest]
  split
  · exact Shuts.keeps (.refl W s)
  · apply (pipeFifoWrite_shuts hW).bind
    intro x _ h₁
    obtain ⟨cnt, s₁⟩ := x
    simp only
    split
    · exact h₁
    · apply (writeAtom_ends s₁ p h₁).bind
      intro w _ _
      have h₂ : Shuts W (s.pipes p).writeAtom s (s₁.enable w [.write]) := h₁.then (.enable W s₁ w _)
      split
      · apply (readAtom_ends (s₁.enable w [.write]) p h₂).bind
        intro r _ _
        exact (h₂.then (.disable W _ r _)).then (.setPipe W _ rfl rfl)
      · exact h₂

theorem pipeUnblock_keeps (s : Sys) (p : PipeRef) :
    Result.Ends id (Keeps W s) (pipeUnblock s p) := by
  rw [pipeUnblock]
  split
  · apply (readAtom_ends s p (.refl W s)).bind
    intro r _ _
    split
    · exact (Keeps.enable W s r _).trans (.setPipe W _ rfl rfl)
    · exact Keeps.refl W s
  · exact Keeps.refl W s

theorem pipeAutoWrite_shuts (hW : ∀ w, (s.pipes p).writeAtom = some w → 0 ≤ (s.atoms w).fd → W (s.atoms w).fd) :
    Result.Ends id (Shuts W (s.pipes p).writeAtom s) (pipeAutoWrite s p) := by
  rw [pipeAutoWrite]
  apply (pipeFifoWrite_shuts hW).bind
  intro x _ h₁
  obtain ⟨cnt, s₁⟩ := x
  simp only
  split
  · exact h₁
  · apply ((pipeUnblock_keeps s₁ p).mono fun s₂ h => h₁.then h).bind
    intro s₂ _ h₂
    split
    · apply (writeAtom_ends s₂ p h₂).bind
      intro w _ _
      exact h₂.then (.disable W s₂ w _)
    · exact h₂

theorem pipeWriteRest_keeps (s : Sys) (p : PipeRef) (buf : List UInt8) (total : Nat) :
    Result.Ends Prod.snd (Keeps W s) (pipeWriteRest s p buf total) := by
  apply (writeAtom_ends s p (.refl W s)).bind
  intro w _ _
  split
  · exact Keeps.disable W s w _
  · exact (Keeps.setFifo (k := s.kernel) (.refl W s)).trans (.enable W _ w _)

theorem pipeWrite_keeps (hW : ∀ w, (s.pipes p).writeAtom = some w → 0 ≤ (s.atoms w).fd → W (s.atoms w).fd)
    (buf : List UInt8) : Result.Ends Prod.snd (Keeps W s) (pipeWrite s p buf) := by
  rw [pipeWrite]
  split
  · apply (writeAtom_ends s p (.refl W s)).bind
    intro w hw _
    have hrest : ∀ k sent, Sent (s.atoms w).fd sent s.kernel k → ∀ buf total,
        Result.Ends Prod.snd (Keeps W s) (pipeWriteRest { s with kernel := k } p buf total) := by
      intro k sent hs buf total
      have hkeeps : Keeps W s { s with kernel := k } := .kernel (.sent (hW w (writeAtom_ok hw)) hs)
      exact (pipeWriteRest_keeps { s with kernel := k } p buf total).mono fun s' h => hkeeps.trans h
    obtain ⟨k, he, hs⟩ | ⟨n, k, he, -, hs⟩ := s.kernel.write_cases (s.atoms w).fd buf
    · rw [he]
      exact hrest k _ hs _ _
    · rw [he]
      exact hrest k _ hs _ _
  · exact pipeWriteRest_keeps s p buf 0

theorem pipeWrites_keeps {texts : List (List UInt8)} (h : PipeWrites p texts s s')
    (hW : ∀ w, (s.pipes p).writeAtom = some w → 0 ≤ (s.atoms w).fd → W (s.atoms w).fd) : Keeps W s s' := by
  induction h with
  | nil s => exact .refl W s
  | @cons text texts total s s₁ s₂ hwrite hs ih =>
    have hkeeps := pipeWrite_keeps hW text
    rw [hwrite] at hkeeps
    have hkeeps : Keeps W s s₁ := hkeeps
    apply hkeeps.trans
    apply ih
    intro w hw
    rw [hkeeps.atoms]
    exact hW w ((hkeeps.ends p).2.symm.trans hw)

/-- A destructor writes before it closes, and closes nothing if it halts. -/
theorem destruct_does (hW : ∀ w, (s.pipes .masterOutput).writeAtom = some w → 0 ≤ (s.atoms w).fd → W (s.atoms w).fd)
    (spec : TaskSpec) :
    Result.Ends id (fun s' => s'.tasks = s.tasks ∧ ∃ fds, fds <+: spec.closed ∧ Does W 0 fds s s')
      (destruct s spec) := by
  have hdone : ∀ s', Keeps W s s' → TaskSpec.closed spec =
      ([spec.infd, spec.outfd, spec.errfd].filter fun fd => 0 ≤ fd) →
      (taskDefaultDestructor s' spec).tasks = s.tasks ∧
        ∃ fds, fds <+: spec.closed ∧ Does W 0 fds s (taskDefaultDestructor s' spec) := by
    intro s' h hclosed
    rw [taskDefaultDestructor_eq, ← hclosed]
    exact ⟨h.tasks, spec.closed, List.prefix_rfl, h.does.trans (.closes s' _)⟩
  have hhalt : ∀ s', Keeps W s s' → s'.tasks = s.tasks ∧ ∃ fds, fds <+: spec.closed ∧ Does W 0 fds s s' :=
    fun s' h => ⟨h.tasks, [], List.nil_prefix, h.does⟩
  rw [destruct]
  cases hproc : spec.destructProc with
  | taskDefault => exact hdone s (.refl W s) (by rw [TaskSpec.closed, hproc])
  | echo =>
    simp only [echoDestructor_eq]
    exact hhalt s (.refl W s)
  | echoScanner =>
    simp only [echoDestructor_eq]
    exact hhalt s (.refl W s)
  | rzt =>
    have hwrite : ∀ s₁, Keeps W s s₁ → ∀ buf, Result.Ends Prod.snd (Keeps W s) (pipeWrite s₁ .masterOutput buf) := by
      intro s₁ h₁ buf
      have hw₁ : ∀ w, (s₁.pipes .masterOutput).writeAtom = some w → 0 ≤ (s₁.atoms w).fd → W (s₁.atoms w).fd := by
        intro w hw
        rw [h₁.atoms]
        exact hW w ((h₁.ends .masterOutput).2.symm.trans hw)
      exact (pipeWrite_keeps hw₁ buf).mono fun s' h => h₁.trans h
    have hidle : Result.Ends id (Keeps W s) (idleEnd s) := by
      rw [idleEnd]
      split
      · exact Keeps.refl W s
      · apply (hwrite s (.refl W s) s.status.text).bind
        intro x _ h
        exact h
    have hsaved : ∀ s₁, Keeps W s s₁ → Result.Ends id (Keeps W s) (restoreSaved s₁ spec) := by
      intro s₁ h₁
      rw [restoreSaved]
      split
      · next addr _ =>
        split
        · exact h₁
        · apply (hwrite s₁ h₁ (s₁.zfins addr).savebuf).bind
          intro x _ h
          exact h
      · exact h₁
    have hend : Result.Ends id (Keeps W s) (idleEnd s >>= fun s => restoreSaved s spec) :=
      hidle.bind fun s₁ _ h₁ => hsaved s₁ h₁
    have heq : rztDestructorProc s spec = (idleEnd s >>= fun s => restoreSaved s spec) >>=
        fun s => .ok (taskDefaultDestructor s spec) := by
      rw [rztDestructorProc, bind_assoc]
    simp only [heq]
    generalize (idleEnd s >>= fun s => restoreSaved s spec) = x at hend ⊢
    cases x with
    | ok s' => exact hdone s' hend (by rw [TaskSpec.closed, hproc])
    | error e => exact hhalt e.2 hend

/-- A destructor disturbs no atom, and no task comes or goes. -/
theorem destruct_untouched {spec : TaskSpec} {w : AtomRef} (hw : (s.pipes .masterOutput).writeAtom = some w)
    (h : destruct s spec = .ok s') : Untouched s s' := by
  obtain ⟨s₁, hwrites, rfl⟩ := destruct_ok h hw
  have hkeeps : Keeps (fun _ => True) s s₁ := pipeWrites_keeps hwrites fun _ _ _ => trivial
  exact hkeeps.toUntouched.trans ⟨rfl, rfl, rfl, Nat.le_refl _, fun _ => ⟨rfl, rfl⟩, rfl, rfl⟩

/-- What is written when a task is removed goes to the task below. -/
theorem taskRemove_does {task top : TaskState} {below : List TaskState}
    (htasks : s.tasks = task :: top :: below)
    (hW : 0 ≤ (s.atoms (.write top.addr)).fd → W (s.atoms (.write top.addr)).fd) :
    Result.Ends id (fun s' => s'.tasks = top :: below ∧ ∃ fds, fds <+: task.spec.closed ∧ Does W 0 fds s s')
      (taskRemove s) := by
  obtain ⟨hfd, -, -, -, hstage, hw⟩ := unstack_rest s task top below
  have hkernel : (unstack s task top below).kernel = s.kernel := congrArg Stage.kernel hstage
  rw [taskRemove_eq htasks, ← unstack_tasks s task top below]
  have hdestruct : Result.Ends id (fun s' => s'.tasks = (unstack s task top below).tasks ∧
      ∃ fds, fds <+: task.spec.closed ∧ Does W 0 fds (unstack s task top below) s')
      (destruct (unstack s task top below) task.spec) := by
    apply destruct_does
    intro w hw'
    obtain rfl := Option.some.inj (hw'.symm.trans hw)
    rw [hfd]
    exact hW
  apply hdestruct.mono
  intro s' h
  obtain ⟨htasks', fds, hfds, hdoes⟩ := h
  exact ⟨htasks', fds, hfds, (Does.of_kernel hkernel).trans hdoes⟩

/-- The last task takes the descriptors of bgio with it. -/
theorem taskRemove_last {task : TaskState} {w : AtomRef} (htasks : s.tasks = [task])
    (hw : (s.pipes .masterOutput).writeAtom = some w) (hW : 0 ≤ (s.atoms w).fd → W (s.atoms w).fd) :
    Result.Ends id (fun s' => s'.tasks = [] ∧
      ∃ fds, fds <+: task.spec.closed ++ [s.stMasterFd, s.stSlaveFd] ∧ Does W 0 fds s s') (taskRemove s) := by
  obtain ⟨io, hio⟩ := destroyAtoms_rest { s with tasks := [] } task.addr
  let s₁ : Sys := { s with tasks := [], io := io }
  have hstart : Does W 0 [] s s₁ := .of_kernel rfl
  have heq : taskRemove s = destruct s₁ task.spec >>= masterPipeDestructor := by
    rw [taskRemove, htasks]
    simp only [taskDestroy]
    rw [hio]
  have hdestruct : Result.Ends id (fun s' => s'.tasks = s₁.tasks ∧
      ∃ fds, fds <+: task.spec.closed ∧ Does W 0 fds s₁ s') (destruct s₁ task.spec) := by
    apply destruct_does
    intro w' hw'
    obtain rfl := Option.some.inj (hw'.symm.trans hw)
    exact hW
  rw [heq]
  cases hres : destruct s₁ task.spec with
  | error e =>
    rw [hres] at hdestruct
    obtain ⟨htasks', fds, hfds, hdoes⟩ := hdestruct
    exact ⟨htasks', fds, hfds.trans (List.prefix_append _ _), hstart.trans hdoes⟩
  | ok s₂ =>
    have hw₁ : (s₁.pipes .masterOutput).writeAtom = some w := hw
    obtain ⟨s₃, hwrites, rfl⟩ := destruct_ok hres hw₁
    have hpoured := pipeWrites_poured hwrites hw₁
    have hkeeps : Keeps W s₁ s₃ := by
      apply pipeWrites_keeps hwrites
      intro w' hw'
      obtain rfl := Option.some.inj (hw'.symm.trans hw₁)
      exact hW
    have hst : s₃.stMasterFd = s.stMasterFd ∧ s₃.stSlaveFd = s.stSlaveFd := by
      rw [hpoured.rest]
      exact ⟨rfl, rfl⟩
    let s₄ : Sys := { s₃ with kernel := s₃.kernel.closes task.spec.closed }
    have hs₄ : Does W 0 task.spec.closed s s₄ := (hstart.trans hkeeps.does).trans (.closes s₃ _)
    have hmaster := pipeAtomDestroy_rest s₄ .master
    refine ⟨?_, _, List.prefix_rfl, ?_⟩
    · change (pipeAtomDestroy s₄ .master).tasks = []
      rw [hmaster]
      exact hpoured.tasks
    · change Does W 0 _ s (((pipeAtomDestroy s₄ .master).close (pipeAtomDestroy s₄ .master).stMasterFd).close
        (pipeAtomDestroy s₄ .master).stSlaveFd)
      rw [hmaster, ← hst.1, ← hst.2]
      have hgone : Does W 0 [] s₄ { s₄ with io := (pipeAtomDestroy s₄ .master).io } := .of_kernel rfl
      exact hs₄.trans (hgone.trans ((Does.close _ _).trans (.close _ _)))

end Stretches

/-- A read event up to the closing of its reader: a receive process may have been started. -/
inductive Starts (W : Int → Prop) (s : Sys) : Sys → Prop where
  | keeps {s' : Sys} (h : Keeps W s s') : Starts W s s'
  | started {s₁ s₂ s' : Sys} (h₁ : Keeps W s s₁) (h₂ : rztaskInstall s₁ = .ok s₂) (h₃ : Keeps W s₂ s') :
    Starts W s s'

section ReadEvents

variable {W : Int → Prop} {p : PipeRef} {s s' : Sys} {buf : List UInt8} {fd cnt : Int}

theorem echoScannerFilterProc_starts (hfd : 0 ≤ fd → W fd) (h : echoScannerFilterProc s p buf fd = .ok s') :
    Starts W s s' := by
  rw [echoScannerFilterProc] at h
  split at h
  · cases h
    exact .keeps (.refl W s)
  · split at h
    · next addr _ =>
      obtain ⟨halt, f, k, sent, he, hs⟩ | ⟨c, sent, he, hs⟩ :=
        echoScannerCall_sent (s.fifo p) (s.zscans addr) buf fd s.kernel
      · rw [he] at h
        cases h
      · rw [he] at h
        simp only at h
        let s₀ : Sys := { s with zscans := Function.update s.zscans addr c.conn }
        have hs₀ : Keeps W s s₀ :=
          ⟨⟨rfl, rfl, rfl, Nat.le_refl _, fun _ => ⟨rfl, rfl⟩, rfl, rfl⟩, .of_kernel rfl⟩
        have h₁ : Keeps W s (s₀.setFifo p c.fifo c.kernel) := hs₀.trans (.setFifo (.sent hfd hs))
        split at h
        · cases h
          exact .keeps h₁
        · next rest _ =>
          obtain ⟨s₂, hinstall, h⟩ := Result.bind_ok h
          have hrest := zscanRemaining_does hfd s₂ p rest
          rw [h] at hrest
          exact .started (h₁.trans (.kernel (.log _ rfl))) hinstall ⟨.filtered (zscanRemaining_ok h), hrest⟩
    · cases h

theorem fifoRead_starts (hfd : 0 ≤ fd → W fd) (h : fifoRead s p fd = .ok (cnt, s')) : Starts W s s' := by
  have hread : Keeps W s { s with kernel := (s.kernel.read fd (min (fifoAvail (s.fifo p)) bufsiz)).2 } :=
    .kernel (.read s fd _)
  cases hproc : (s.fifo p).proc with
  | none =>
    rw [fifoRead_noProc hproc] at h
    cases h
    exact .keeps (.setFifo (.read s fd _))
  | some proc =>
    obtain ⟨k, rfl, hcall⟩ := fifoRead_callProc hproc h
    generalize (s.kernel.read fd (min (fifoAvail (s.fifo p)) bufsiz)).2 = k at hread hcall
    by_cases hscan : proc = .echoScannerFilterProc
    · subst hscan
      cases echoScannerFilterProc_starts hfd hcall with
      | keeps h₁ => exact .keeps (hread.trans h₁)
      | started h₁ h₂ h₃ => exact .started (hread.trans h₁) h₂ h₃
    · have hdoes := callProc_does (W := W) hscan { s with kernel := k } p (arriving s p fd) fd
      rw [hcall] at hdoes
      cases callProc_ok (s := { s with kernel := k }) hproc hcall with
      | filtered hf => exact .keeps (hread.trans ⟨.filtered hf, hdoes⟩)
      | started hstart =>
        obtain ⟨-, hscanner, -⟩ := hstart
        exact absurd (Option.some.inj (hproc.symm.trans hscanner)) hscan

/-- The end of a file is found by an open descriptor only. -/
theorem fifoRead_open (h : fifoRead s p fd = .ok (-2, s')) : 0 ≤ fd := by
  by_contra hneg
  have hread : s.kernel.read fd (min (fifoAvail (s.fifo p)) bufsiz) =
      (none, { s.kernel with errno := some .ebadf }) := by
    rw [Kernel.read, if_pos (Int.not_le.mp hneg)]
  rw [fifoRead, hread] at h
  simp only at h
  split at h
  · obtain ⟨s₁, -, h⟩ := Result.bind_ok h
    cases h
  · cases h

end ReadEvents

/-- What holds of the stack of tasks and their atoms, whatever goes through the pipes. -/
structure Lasting (P : Sys → Prop) : Prop where
  untouched {s s' : Sys} (hs : P s) (h : Untouched s s') : P s'
  closed {s : Sys} {a : AtomRef} (hwf : s.WF) (hs : P s) (ha : s.Held a) : P (closeAtom s a)
  installed {s s' : Sys} {spec : TaskSpec} (hwf : s.WF) (hs : P s) (h : taskInstall s spec = .ok s') : P s'
  removed {s s' : Sys} (hwf : s.WF) (hs : P s) (h : taskRemove s = .ok s') : P s'

namespace Lasting

variable {P : Sys → Prop} {s s' s₀ : Sys} {p : PipeRef} {a : AtomRef} {m : Move}

theorem shuts {W : Int → Prop} (hP : Lasting P) (hwf : s.WF) (hs : P s)
    (h : Shuts W (s.pipes p).writeAtom s s') : P s' := by
  cases h with
  | keeps h => exact hP.untouched hs h.toUntouched
  | @shuts b s₁ _ h hb _ h' =>
    have hwf₁ := h.wf hwf
    have hheld := hwf₁.held b (hwf₁.inUse p b (.inr ((h.ends p).2.trans hb)))
    exact hP.untouched (hP.closed hwf₁ (hP.untouched hs h.toUntouched) hheld) h'.toUntouched

theorem starts {W : Int → Prop} (hP : Lasting P) (hwf : s.WF) (hs : P s) (h : Starts W s s') : P s' := by
  cases h with
  | keeps h => exact hP.untouched hs h.toUntouched
  | started h₁ h₂ h₃ =>
    obtain ⟨s₁, spec, hf, -, htask⟩ := rztaskInstall_ok .masterOutput h₂
    have hspec := h₁.toUntouched.trans (.filtered hf)
    exact hP.untouched (hP.installed (hspec.wf hwf) (hP.untouched hs hspec) htask) h₃.toUntouched

theorem autoRead (hP : Lasting P) (hwf : s.WF) (hs : P s) (h : pipeAutoRead s p = .ok s') : P s' := by
  obtain ⟨cnt, r, s₁, s₂, hr, -, hfifo, hclose, h⟩ := pipeAutoRead_steps h
  have hwf₁ := (fifoRead_ok hfifo).wf hwf
  have h₁ := hP.starts hwf hs (fifoRead_starts (W := fun _ => True) (fun _ => trivial) hfifo)
  have h₂ : s₂.WF ∧ P s₂ := by
    obtain rfl | ⟨r', hr', rfl⟩ := hclose
    · exact ⟨hwf₁, h₁⟩
    · have hr' := hwf₁.inUse p r' (.inl hr')
      exact ⟨hwf₁.mayClose hr' (shape_closeAtom s₁ r') (.closed (.refl _)),
        hP.closed hwf₁ h₁ (hwf₁.held r' hr')⟩
  have hrest := pipeAutoReadRest_shuts (W := fun _ => True) (s := s₂) (p := p) fun _ _ _ => trivial
  rw [h] at hrest
  exact hP.shuts h₂.1 h₂.2 hrest

/-- A move keeps what an untouched state, a close, an installation and a removal keep. -/
theorem move (hP : Lasting P) (hwf : s.WF) (hs : P s) (hcalled : m.Called s) (h : m.run s = .ok s') : P s' := by
  cases m with
  | event e =>
    cases e with
    | echoScanner =>
      have hspec := echoScannerCreateSpec_filtered s .masterOutput
      exact hP.installed (hspec.wf hwf) (hP.untouched hs (.filtered hspec)) h
    | autoRead p => exact hP.autoRead hwf hs h
    | autoWrite p =>
      have hshuts := pipeAutoWrite_shuts (W := fun _ => True) (s := s) (p := p) fun _ _ _ => trivial
      have h : pipeAutoWrite s p = .ok s' := h
      rw [h] at hshuts
      exact hP.shuts hwf hs hshuts
    | write p buf =>
      obtain ⟨⟨total, s₁⟩, hwrite, h⟩ := Result.bind_ok h
      cases h
      have hkeeps := pipeWrite_keeps (W := fun _ => True) (s := s) (p := p) (fun _ _ _ => trivial) buf
      rw [hwrite] at hkeeps
      exact hP.untouched hs hkeeps.toUntouched
    | install spec => exact hP.installed hwf hs h
    | remove => exact hP.removed hwf hs h
  | finalWrite =>
    obtain ⟨w, -, ⟨rfl, -⟩ | rfl⟩ := finalWrite_ok h
    · exact hs
    · exact hP.untouched hs (.setFifo s _ _ _)
  | typing a =>
    obtain ⟨pids, rfl⟩ := typingIoProc_ok h
    exact hP.untouched hs ⟨rfl, rfl, rfl, Nat.le_refl _, fun _ => ⟨rfl, rfl⟩, rfl, rfl⟩
  | cherr a =>
    obtain ⟨hclose, hrest⟩ := cherrProc_ok h
    cases hclose with
    | same h => exact hP.untouched hs (.of_rest hrest h)
    | closed h =>
      have honly : s' = { closeAtom s a with kernel := s'.kernel, io := s'.io, atoms := s'.atoms } := by
        rw [closeAtom_only s a, hrest]
      exact hP.untouched (hP.closed hwf hs hcalled) (.of_rest honly h)

/-- So it holds in every state of a run from one that it holds in. -/
theorem run (hP : Lasting P) (h₀ : Started s₀) (hs : P s₀) (run : ProgramRun s₀ s) : P s := by
  induction run with
  | start => exact hs
  | next run m hcalled h ih => exact hP.move (programRun_wf h₀ run) ih hcalled h

end Lasting

end Rzh
