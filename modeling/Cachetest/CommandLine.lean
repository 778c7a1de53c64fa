import Cachetest.Experiment
import Cachetest.Text

/-!
# The command line

The first half of `Parse_options`: `getopt` in a loop, with the `switch` over the options. What the
second half parses, the lists of threads, fibres and CPUs, is kept as text in `Inputs`.
-/

namespace Cachetest

open Text

/-! ## Strings -/

/-- The loop of `split`, from `offset` on, for at most as many rounds as given. -/
def splitLoop (str del : Text) : Nat → Nat → Outcome (List Text)
  | 0, _ => .error (.undefined "split does not return")
  | rounds + 1, offset =>
    match find str del offset with
    | some it => do
      let token := (str.drop offset).take (it - offset)
      let tokens ← splitLoop str del rounds (offset + token.length + del.length)
      return token :: tokens
    | none => .ok [str.drop offset]

/-- `split`. Unless the delimiter is empty, every round gets past at least one character. -/
def split (str del : Text) : Outcome (List Text) := splitLoop str del (str.length + 1) 0

theorem splitLoop_singleton (str : Text) (c : Char) {rounds offset : Nat}
    (hrounds : (str.drop offset).length < rounds) :
    splitLoop str [c] rounds offset = .ok ((str.drop offset).splitOn c) := by
  induction rounds generalizing offset with
  | zero => omega
  | succ rounds ih =>
    unfold splitLoop
    cases hfind : find str [c] offset with
    | none => rw [List.splitOn_eq_singleton (not_mem_drop_of_find hfind)]
    | some it =>
      obtain ⟨hit, hoffset, hprefix, -⟩ := find_eq_some.mp hfind
      obtain ⟨hlt, hget⟩ := List.getElem?_eq_some_iff.mp (singleton_prefix_drop.mp hprefix)
      rw [List.length_drop] at hrounds
      have htoken : ((str.drop offset).take (it - offset)).length = it - offset := by
        rw [List.length_take, List.length_drop]
        omega
      have hrest : str.drop offset =
          (str.drop offset).take (it - offset) ++ c :: str.drop (it + 1) := by
        rw [← hget, ← List.drop_eq_getElem_cons hlt]
        conv_lhs => rw [← List.take_append_drop (it - offset) (str.drop offset)]
        rw [List.drop_drop, Nat.add_sub_cancel' hoffset]
      simp only [htoken, List.length_singleton, Nat.add_sub_cancel' hoffset]
      rw [ih (by rw [List.length_drop]; omega), ok_bind, hrest,
        List.splitOn_append_cons_self_of_not_mem (not_mem_take_of_find hfind), ← hrest]
      rfl

theorem split_singleton (str : Text) (c : Char) : split str [c] = .ok (str.splitOn c) :=
  splitLoop_singleton str c (Nat.lt_succ_self _)

/-- `std::stoi`. -/
def stoi (str : Text) : Outcome Int :=
  match scanInteger str with
  | none => .error (.thrown "std::invalid_argument: stoi")
  | some v =>
    if -2147483648 ≤ v ∧ v ≤ intMax then .ok v else .error (.thrown "std::out_of_range: stoi")

/-- `std::stoull`, which takes a minus sign as a request to wrap around. -/
def stoull (str : Text) : Outcome Nat :=
  match scanInteger str with
  | none => .error (.thrown "std::invalid_argument: stoull")
  | some v =>
    if v.natAbs < sizeRange then .ok (v % (sizeRange : Int)).toNat
    else .error (.thrown "std::out_of_range: stoull")

/-- `atoi`: the conversion of a saturating `strtol` to `int`. -/
def atoi (str : Text) : Int32 :=
  Int32.ofInt (max (-9223372036854775808) (min 9223372036854775807 ((scanInteger str).getD 0)))

/-! ## Options -/

/-- The lines `usage` prints after its first one. -/
def usageLines : List String := [
  "options:",
  "-T CSV of threads per subpath (default: 1 thread on 1 subpath)",
  "-F CSV of fibres per subpath (disabled by default)",
  "-M flag indicating to perform thread migration across subpaths (disabled by default; " ++
    "specify with -F)",
  "-C CSV *or* range (M-N) of CPU ids to which all threads are pinned",
  "   Specify CPUs per threads of each subpath " ++
    "by specifying CSVs/ranges separated by a period (\".\")",
  "   Specify CPUs per thread of a subpath " ++
    "by specifying CSVs/ranges separated by an tilde (\"~\")",
  "   (default: not pinned)",
  "   (default: no pinning)",
  "-I Enable individual pinning i.e., pin 1 thread to 1 CPU",
  "   This option overridden by specifying CPUs per thread of a subpath",
  "-m CSV *or* range (M-N) of CPU ids to which main thread is pinned (default: not pinned)",
  "-Z Use Zipf distribution and specify alpha value",
  "",
  "-a require physically contigous memory (default: no)",
  "-b buffer factor (default: 1)",
  "-d duration in seconds (default: 1)",
  "-f loop factor (default: 1)",
  "-l cache line size in bytes (default: 64)",
  "-r random seed (default: sequential access)",
  "-c CPU ID to pin the experiment to (default: 1, off main)",
  "-e Event list (rx0000yyxx or xx,uyy format)",
  "-h Use Huge pages (default: no) ",
  "-o Offset into the start of the buffer",
  "-A Append output when using files",
  "-w Wait for signal before executing",
  "-s Dump the sequence pattern"]

/-- `usage`. -/
def usage {α : Type} (program : Text) : Outcome α :=
  let first := "usage: " ++ String.ofList program ++
    " [options] <dataset in KB> [output file] [error output file]"
  .error (.exited (String.intercalate "\n" (first :: usageLines) ++ "\n") 1)

/-- `OPT_ARG_STRING`. -/
def optArgString : Text := "T:F:MC:Im:shab:d:f:l:r:c:e:o:AwZ:".toList

/-- What `Parse_options` depends on besides its arguments: `Perf`, whose `parseEvents` is virtual,
the C library's `atof`, and the machine. -/
structure Environment (ε : Type) where
  parseEvents : Text → Outcome ε
  atof : Text → ℚ
  hardwareConcurrency : Nat

/-- The local and global variables the options set. -/
structure Inputs (ε : Type) where
  opt : Options
  threadsInput : Text
  cpuIdsInput : Text
  fibresInput : Text
  mainCPUIdsInput : Text
  groupPinning : Bool
  migrate : Bool
  zipfAlpha : ℚ
  measuredEvents : Option ε

/-- Their values before the loop. -/
def Inputs.initial (ε : Type) : Inputs ε where
  opt := .default
  threadsInput := []
  cpuIdsInput := []
  fibresInput := []
  mainCPUIdsInput := []
  groupPinning := true
  migrate := false
  zipfAlpha := 0
  measuredEvents := none

section Scan

variable {ε : Type} (env : Environment ε) (program : Text)

/-- The `switch` of `Parse_options`. -/
def setOption (v : Inputs ε) : Char × Text → Outcome (Inputs ε)
  | ('T', optarg) => .ok { v with threadsInput := optarg }
  | ('F', optarg) => .ok { v with fibresInput := optarg }
  | ('M', _) => .ok { v with migrate := true }
  | ('C', optarg) => .ok { v with cpuIdsInput := optarg }
  | ('I', _) => .ok { v with groupPinning := false }
  | ('m', optarg) => .ok { v with mainCPUIdsInput := optarg }
  | ('b', optarg) => .ok { v with opt.bufferfactor := (atoi optarg).toUInt32 }
  | ('d', optarg) => .ok { v with opt.duration := (atoi optarg).toUInt32 }
  | ('f', optarg) => .ok { v with opt.loopfactor := (atoi optarg).toUInt32 }
  | ('l', optarg) => .ok { v with opt.cacheline := (atoi optarg).toUInt32 }
  | ('r', optarg) => .ok { v with opt.seed := atoi optarg }
  | ('c', optarg) => .ok { v with opt.cpu := atoi optarg }
  | ('e', optarg) => do
    let events ← env.parseEvents optarg
    return { v with measuredEvents := some events }
  | ('a', _) => .ok { v with opt.cont := true }
  | ('h', _) => .ok { v with opt.huge := true }
  | ('o', optarg) => .ok { v with opt.bufferoffset := (atoi optarg).toUInt32 }
  | ('A', _) => .ok { v with opt.append := true }
  | ('w', _) => .ok { v with opt.wait := true }
  | ('s', _) => .ok { v with opt.dumpSeq := true }
  | ('Z', optarg) => .ok { v with zipfAlpha := env.atof optarg }
  | _ => usage program

/-- The options and the dataset, with the names of the output files. -/
def scanOptions (args : List Text) : Outcome (Inputs ε × List Text) := do
  let (options, operands) := getopt optArgString args
  let v ← options.foldlM (setOption env program) (Inputs.initial ε)
  match operands with
  | [] => usage program
  | dataset :: files =>
    return ({ v with opt.dataset := (atoi dataset <<< 10).toUInt32 }, files)

end Scan

end Cachetest
