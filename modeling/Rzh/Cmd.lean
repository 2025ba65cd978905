import Rzh.CString

/-!
# cmd.c

A command is parsed out of a string: the path, and an array of arguments that a NULL ends. A string is
the list of its characters up to the NUL, an array is a list, and a store behind its end is a fault.
-/
namespace Rzh

open Tokens

structure Command where
  path : Option (List UInt8)
  args : Option (List (Option (List UInt8)))
  deriving DecidableEq, Repr

inductive CmdFault where
  | outside
  | assertion
  deriving DecidableEq, Repr

def myStrndup (str : List UInt8) (len : Nat) : List UInt8 := str.take len

def cmdNameFromPath (path : List UInt8) : List UInt8 := (strrchr 47 path).elim path List.tail

namespace Command

def storeArg (cmd : Command) (i : Nat) (arg : Option (List UInt8)) : Except CmdFault Command :=
  cmd.args.elim (.error .outside) fun args =>
    if i < args.length then .ok { cmd with args := some (args.set i arg) } else .error .outside

end Command

/-- What for_tokens calls for each token: its number, where it starts and how long it is. -/
abbrev TokenProc := Command → Nat → List UInt8 → Nat → Except CmdFault Command

def storeProc : TokenProc := fun cmd tokno str len => cmd.storeArg (tokno + 1) (some (myStrndup str len))

/-- The loop of for_tokens; it begins with a count of zero. -/
def forTokens (proc : Option TokenProc) (cnt : Nat) (cmd : Command) (cp : List UInt8) :
    Except CmdFault (Nat × Command) :=
  if h : skip isspace cp = [] then .ok (cnt, cmd)
  else do
    let tok := skip isspace cp
    let rest := scanPast isspace tok
    let cmd ← proc.elim (.ok cmd) fun proc => proc cmd cnt tok (tok.length - rest.length)
    forTokens proc (cnt + 1) cmd rest
  termination_by cp.length
  decreasing_by exact scanPast_length h

/-- The arguments are freed up to the NULL. -/
def cmdFree (cmd : Command) : Except CmdFault Unit :=
  if ∃ args ∈ cmd.args, none ∉ args then .error .outside else .ok ()

/-- `memory` is what the array holds before anything is stored in it. -/
def cmdParse (memory : Nat → Option (List UInt8)) (cmd : Command) (str : List UInt8) :
    Except CmdFault Command :=
  let str := skip isspace str
  -- only a warning: a null command
  if str = [] then .ok cmd
  else do
    let cp := scanPast isspace str
    cmdFree cmd
    let path := myStrndup str (str.length - cp.length)
    let cmd := { cmd with path := some path }
    let (cnt, cmd) ← forTokens none 0 cmd cp
    let cnt := cnt + 2
    let cmd := { cmd with args := some ((List.range cnt).map memory) }
    let cmd ← cmd.storeArg 0 (some (cmdNameFromPath path))
    let (cnt', cmd) ← forTokens (some storeProc) 0 cmd cp
    if cnt' ≠ cnt - 2 then .error .assertion
    else cmd.storeArg (cnt - 1) none

def cmdInit : Command := ⟨none, none⟩

/-- The commands that there are: empty, or made by cmd_parse. -/
inductive Parsed : Command → Prop where
  | init : Parsed cmdInit
  | parse {memory : Nat → Option (List UInt8)} {cmd cmd' : Command} {str : List UInt8} (h : Parsed cmd)
    (hparse : cmdParse memory cmd str = .ok cmd') : Parsed cmd'

/-- The part of a path behind its last slash. -/
def IsName (path name : List UInt8) : Prop :=
  47 ∉ name ∧ ∃ dir, path = dir ++ name ∧ (dir = [] ∨ dir.getLast? = some 47)

section Scans

variable {proc : Option TokenProc} {cmd : Command} {str tok path : List UInt8} {toks : List (List UInt8)} {cnt : Nat}
  {args : List (Option (List UInt8))}

theorem cmdNameFromPath_isName (path : List UInt8) : IsName path (cmdNameFromPath path) := by
  obtain ⟨hnone, hslash⟩ | ⟨front, back, hsome, hpath, hback⟩ := strrchr_split 47 path
  · rw [cmdNameFromPath, hnone]
    exact ⟨hslash, [], rfl, .inl rfl⟩
  · rw [cmdNameFromPath, hsome]
    refine ⟨hback, front ++ [47], ?_, .inr (List.getLast?_concat ..)⟩
    rw [List.append_assoc]
    exact hpath

/-- A pass over a string calls the proc for the first token and goes on behind it. -/
theorem forTokens_run (h : Runs isspace str (tok :: toks)) (proc : Option TokenProc) (cnt : Nat) (cmd : Command) :
    ∃ rest, Runs isspace rest toks ∧ skip isspace str = tok ++ rest ∧
      forTokens proc cnt cmd str =
        proc.elim (.ok cmd) (fun proc => proc cmd cnt (tok ++ rest) tok.length) >>= fun cmd =>
          forTokens proc (cnt + 1) cmd rest := by
  obtain ⟨hskip, hne, hrest⟩ := h.scan
  refine ⟨scanPast isspace (skip isspace str), hrest, hskip, ?_⟩
  have hsome : skip isspace str ≠ [] := by
    rw [hskip]
    exact List.append_ne_nil_of_left_ne_nil hne _
  have hlength : (skip isspace str).length - (scanPast isspace (skip isspace str)).length = tok.length := by
    have hsum := congrArg List.length hskip
    rw [List.length_append] at hsum
    omega
  rw [forTokens, dif_neg hsome]
  simp only [hlength]
  rw [← hskip]

theorem forTokens_blank (h : Runs isspace str []) (proc : Option TokenProc) (cnt : Nat) (cmd : Command) :
    forTokens proc cnt cmd str = .ok (cnt, cmd) := by
  rw [forTokens, dif_pos h.skip_nil]

/-- The first pass counts. -/
theorem forTokens_counts (h : Runs isspace str toks) (cnt : Nat) (cmd : Command) :
    forTokens none cnt cmd str = .ok (cnt + toks.length, cmd) := by
  induction toks generalizing str cnt with
  | nil => exact forTokens_blank h none cnt cmd
  | cons tok toks ih =>
    obtain ⟨rest, hrest, -, hpass⟩ := forTokens_run h none cnt cmd
    rw [hpass]
    show forTokens none (cnt + 1) cmd rest = _
    rw [ih hrest, List.length_cons]
    congr 2
    omega

/-- The second pass stores the tokens one after the other. -/
theorem forTokens_stores (h : Runs isspace str toks) (hargs : cmd.args = some args)
    (hfit : cnt + 1 + toks.length ≤ args.length) :
    forTokens (some storeProc) cnt cmd str = .ok (cnt + toks.length, { cmd with
      args := some (args.take (cnt + 1) ++ toks.map some ++ args.drop (cnt + 1 + toks.length)) }) := by
  induction toks generalizing str cnt cmd args with
  | nil =>
    rw [forTokens_blank h]
    simp [← hargs]
  | cons tok toks ih =>
    obtain ⟨rest, hrest, -, hpass⟩ := forTokens_run h (some storeProc) cnt cmd
    rw [List.length_cons] at hfit
    have hstore : storeProc cmd cnt (tok ++ rest) tok.length =
        .ok { cmd with args := some (args.set (cnt + 1) (some tok)) } := by
      rw [storeProc, Command.storeArg, hargs, Option.elim_some, if_pos (by omega), myStrndup,
        List.take_left' rfl]
    rw [hpass]
    show storeProc cmd cnt (tok ++ rest) tok.length >>= _ = _
    rw [hstore]
    show forTokens (some storeProc) (cnt + 1) _ rest = _
    rw [ih hrest rfl (by rw [List.length_set]; omega)]
    have hcount : cnt + 1 + toks.length = cnt + (toks.length + 1) := by omega
    have hbehind : cnt + 1 + 1 + toks.length = cnt + 1 + (toks.length + 1) := by omega
    have htake : (args.set (cnt + 1) (some tok)).take (cnt + 1 + 1) = args.take (cnt + 1) ++ [some tok] := by
      rw [List.take_add_one, List.take_set_of_le (Nat.le_refl _), List.getElem?_set_self (by omega)]
      rfl
    rw [htake, List.drop_set_of_lt (by omega), hcount, hbehind, List.length_cons, List.map_cons,
      List.append_assoc, List.append_assoc, List.append_assoc]
    rfl

end Scans

section Parse

variable {memory : Nat → Option (List UInt8)} {cmd cmd' : Command} {str tok : List UInt8} {toks : List (List UInt8)}

/-- A blank string leaves the command as it was. -/
theorem cmdParse_blank (h : Runs isspace str []) : cmdParse memory cmd str = .ok cmd := by
  rw [cmdParse]
  simp only [h.skip_nil, if_true]

/-- With a token the old arguments are freed and the new ones stored. -/
theorem cmdParse_tokens (hend : ∀ args ∈ cmd.args, none ∈ args) (h : Runs isspace str (tok :: toks)) :
    cmdParse memory cmd str =
      .ok ⟨some tok, some (some (cmdNameFromPath tok) :: toks.map some ++ [none])⟩ := by
  obtain ⟨hskip, hne, hrest⟩ := h.scan
  have hsome : skip isspace str ≠ [] := by
    rw [hskip]
    exact List.append_ne_nil_of_left_ne_nil hne _
  have hfree : cmdFree cmd = .ok () := by
    rw [cmdFree, if_neg]
    rintro ⟨args, hargs, hnone⟩
    exact hnone (hend args hargs)
  have hpath : myStrndup (skip isspace str)
      ((skip isspace str).length - (scanPast isspace (skip isspace str)).length) = tok := by
    rw [myStrndup]
    generalize skip isspace str = cp at hskip
    have hsum := congrArg List.length hskip
    rw [List.length_append] at hsum
    have htok : cp.length - (scanPast isspace cp).length = tok.length := by omega
    rw [htok]
    exact (congrArg (List.take tok.length) hskip).trans (List.take_left' rfl)
  obtain ⟨n, hn⟩ : ∃ n, toks.length = n := ⟨_, rfl⟩
  generalize hname : cmdNameFromPath tok = name
  have hnamed : Command.storeArg ⟨some tok, some ((List.range (n + 2)).map memory)⟩ 0 (some name) =
      .ok ⟨some tok, some (some name :: ((List.range (n + 2)).map memory).tail)⟩ := by
    rw [List.range_succ_eq_map, Command.storeArg, Option.elim_some, if_pos (by simp)]
    rfl
  generalize hblank : ((List.range (n + 2)).map memory).tail = blank at hnamed
  have hlength : blank.length = n + 1 := by simp [← hblank]
  have hfit : 0 + 1 + toks.length ≤ (some name :: blank).length := by
    rw [List.length_cons]
    omega
  have hstores : forTokens (some storeProc) 0 ⟨some tok, some (some name :: blank)⟩
      (scanPast isspace (skip isspace str)) = _ := forTokens_stores hrest rfl hfit
  obtain ⟨last, hlast⟩ : ∃ last, blank.drop n = [last] :=
    List.length_eq_one_iff.mp (by rw [List.length_drop]; omega)
  have hargs : (some name :: blank).take (0 + 1) ++ toks.map some ++ (some name :: blank).drop (0 + 1 + n) =
      some name :: toks.map some ++ [last] := by
    rw [Nat.zero_add, Nat.add_comm 1 n, List.drop_succ_cons, hlast]
    rfl
  rw [hn, hargs, Nat.zero_add] at hstores
  have hend : Command.storeArg ⟨some tok, some (some name :: toks.map some ++ [last])⟩ (n + 1) none =
      .ok ⟨some tok, some (some name :: toks.map some ++ [none])⟩ := by
    rw [Command.storeArg, Option.elim_some, if_pos (by simp [hn]), List.set_append_right _ _ (by simp [hn])]
    simp [hn]
  rw [cmdParse]
  simp only [if_neg hsome, hfree, hpath, forTokens_counts hrest, hn, hname, bind, Except.bind, Nat.zero_add]
  simp only [hnamed, hstores]
  rw [if_neg (by simp)]
  exact hend

theorem Parsed.ends (h : Parsed cmd) : ∀ args ∈ cmd.args, none ∈ args := by
  induction h with
  | init => nofun
  | @parse memory cmd cmd' str _ hparse ih =>
    obtain ⟨toks, hruns⟩ := runs_exist isspace str
    cases toks with
    | nil =>
      rw [cmdParse_blank hruns] at hparse
      cases hparse
      exact ih
    | cons tok toks =>
      rw [cmdParse_tokens ih hruns] at hparse
      cases hparse
      intro args hargs
      cases hargs
      simp

end Parse

/-- Whatever command there is, a blank string leaves it alone. Of any other the first token is the path,
and the array has its name, the other tokens and the NULL; no store misses the array, and the two passes
agree. -/
theorem cmdParse_args {cmd : Command} (h : Parsed cmd) (memory : Nat → Option (List UInt8)) (str : List UInt8) :
    (∃ toks, Runs isspace str toks) ∧
      (Runs isspace str [] → cmdParse memory cmd str = .ok cmd) ∧
      ∀ tok toks, Runs isspace str (tok :: toks) → ∃ name, IsName tok name ∧
        cmdParse memory cmd str = .ok ⟨some tok, some (some name :: toks.map some ++ [none])⟩ := by
  refine ⟨runs_exist isspace str, cmdParse_blank, ?_⟩
  intro tok toks hruns
  exact ⟨cmdNameFromPath tok, cmdNameFromPath_isName tok, cmdParse_tokens h.ends hruns⟩

/-- " /bin/ls  -l" -/
theorem cmdParse_args_ls : ∃ name, IsName [47, 98, 105, 110, 47, 108, 115] name ∧
    cmdParse (fun _ => none) cmdInit [32, 47, 98, 105, 110, 47, 108, 115, 32, 32, 45, 108] =
      .ok ⟨some [47, 98, 105, 110, 47, 108, 115], some [some name, some [45, 108], none]⟩ := by
  apply (cmdParse_args .init (fun _ => none) _).2.2 [47, 98, 105, 110, 47, 108, 115] [[45, 108]]
  show Runs isspace ([32] ++ [47, 98, 105, 110, 47, 108, 115] ++ ([32, 32] ++ [45, 108] ++ [])) _
  have hblank : Runs isspace [] [] := .blank (by simp)
  have hargs : Runs isspace ([32, 32] ++ [45, 108] ++ []) [[45, 108]] :=
    .run (by simp [isspace]) (by simp) (by simp [isspace]) (by simp) hblank
  exact .run (by simp [isspace]) (by simp) (by simp [isspace]) (by simp [isspace]) hargs

end Rzh
