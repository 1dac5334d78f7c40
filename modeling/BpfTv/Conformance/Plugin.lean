import BpfTv.Bpf.Footprint
import BpfTv.Lifter.HelperIdentity
import BpfTv.Lifter.ProgramRuns

/-!
# The conformance plugin

The plugin reads a BPF program and the input memory as hex text, lifts the program in bytes mode, runs the
lifted function with `r1` at the memory and its size in `r2`, and prints the result in hex. What it prints is
what the BPF machine returns (`conformance_output`), however the bytes are written down (`Spells`), for a run
that accesses nothing but the input memory and the stack.
-/

namespace BpfTv.Conformance

open Control StateTransition Bytes

variable {text : List Char} {bytes memBytes : List (BitVec 8)} {dis : Disassembler} {prog : Nat → Option Insn}
  {F : LFunction}

/-! ## Hex -/

def isxdigit (c : Char) : Bool :=
  ('0' ≤ c && c ≤ '9') || ('a' ≤ c && c ≤ 'f') || ('A' ≤ c && c ≤ 'F')

def digitValue (c : Char) : Nat :=
  if c ≤ '9' then c.toNat - '0'.toNat
  else if c ≤ 'F' then c.toNat - 'A'.toNat + 10
  else c.toNat - 'a'.toNat + 10

/-- `stoul(digits, nullptr, 16)`. -/
def stoul (digits : List Char) : Nat := digits.foldl (fun n c => 16 * n + digitValue c) 0

/-- Two digits for a byte; a last single digit is a byte of its own. -/
def hexBytes : List Char → List (BitVec 8)
  | [] => []
  | [c] => [BitVec.ofNat 8 (stoul [c])]
  | c :: d :: rest => BitVec.ofNat 8 (stoul [c, d]) :: hexBytes rest

def parseHex (s : List Char) : List (BitVec 8) := hexBytes (s.filter isxdigit)

/-- The digits in the text are those of the bytes, two for each; what is between them can be anything. -/
def Spells (s : List Char) (bytes : List (BitVec 8)) : Prop :=
  (s.filter isxdigit).map digitValue = bytes.flatMap fun b => [b.toNat / 16, b.toNat % 16]

instance : Decidable (Spells text bytes) := inferInstanceAs (Decidable (_ = _))

theorem hexBytes_spelled {digits : List Char}
    (h : digits.map digitValue = bytes.flatMap fun b => [b.toNat / 16, b.toNat % 16]) :
    hexBytes digits = bytes := by
  induction bytes generalizing digits with
  | nil =>
    obtain rfl := List.map_eq_nil_iff.mp h
    rfl
  | cons b bytes ih =>
    rw [List.flatMap_cons] at h
    obtain ⟨c, rest, rfl, hc, h⟩ := List.map_eq_cons_iff.mp h
    obtain ⟨d, rest, rfl, hd, h⟩ := List.map_eq_cons_iff.mp h
    have hbyte : stoul [c, d] = b.toNat := by
      simp only [stoul, List.foldl_cons, List.foldl_nil, hc, hd]
      omega
    rw [hexBytes, hbyte, ih h, BitVec.ofNat_toNat, BitVec.setWidth_eq]

/-- **Round trip.** The bytes are read however they are spelled. -/
theorem parseHex_spelled (h : Spells text bytes) : parseHex text = bytes := hexBytes_spelled h

/-! ## The command line -/

/-- Why nothing is run. -/
inductive Refusal
  | usage
  | unsupported (option : String)
  | programSize (n : Nat)
  deriving DecidableEq, Repr

/-- `mem_hex` after the arguments: the last one. -/
def memoryHex (mem_hex : String) : List String → Except Refusal String
  | [] => .ok mem_hex
  | arg :: rest =>
    if arg = "--help" then
      .error .usage
    else if "--".toList.isPrefixOf arg.toList then
      .error (.unsupported arg)
    else
      memoryHex arg rest

/-- `prog_hex`: the lines of the input, one behind the other. -/
def programHex (stdin : String) : List Char := stdin.toList.filter (· ≠ '\n')

/-- The program and the memory that are run. -/
def invocation (args : List String) (stdin : String) : Except Refusal (List (BitVec 8) × List (BitVec 8)) := do
  let mem_hex ← memoryHex "" args
  let prog := parseHex (programHex stdin)
  let mem := parseHex mem_hex.toList
  if prog.isEmpty ∨ prog.length % 8 ≠ 0 then
    throw (.programSize prog.length)
  return (prog, mem)

theorem memoryHex_last {args : List String} (mem_hex : String)
    (h : ∀ a ∈ args, "--".toList.isPrefixOf a.toList = false) :
    memoryHex mem_hex args = .ok (args.getLastD mem_hex) := by
  induction args generalizing mem_hex with
  | nil => rfl
  | cons arg rest ih =>
    obtain ⟨harg, hrest⟩ := List.forall_mem_cons.mp h
    have hhelp : arg ≠ "--help" := by
      rintro rfl
      cases harg
    rw [memoryHex, if_neg hhelp, if_neg (ne_true_of_eq_false harg), ih arg hrest, List.getLastD_cons]

theorem filter_programHex (stdin : String) :
    (programHex stdin).filter isxdigit = stdin.toList.filter isxdigit := by
  rw [programHex, List.filter_filter]
  refine List.filter_congr fun c _ => ?_
  by_cases hc : c = '\n'
  · subst hc
    rfl
  · simp [hc]

theorem invocation_spelled {args : List String} {stdin : String}
    (hargs : ∀ a ∈ args, "--".toList.isPrefixOf a.toList = false)
    (hmem : Spells (args.getLastD "").toList memBytes) (hstdin : Spells stdin.toList bytes) (hne : bytes ≠ [])
    (hsize : 8 ∣ bytes.length) : invocation args stdin = .ok (bytes, memBytes) := by
  have hprog : parseHex (programHex stdin) = bytes := by
    rw [parseHex, filter_programHex]
    exact parseHex_spelled hstdin
  have hok : ¬(bytes.isEmpty ∨ bytes.length % 8 ≠ 0) := by
    simp [hne, Nat.mod_eq_zero_of_dvd hsize]
  simp only [invocation, memoryHex_last "" hargs, hprog, parseHex_spelled hmem, bind, Except.bind]
  rw [if_neg hok]
  rfl

/-! ## Lifting and running -/

/-- `conformance_test`, an `i64` function of a pointer and an `i64`. -/
def conformanceEnv : Env where
  srcRetTy := .int 64
  srcArgs := [{ ty := .ptr }, { ty := .int 64 }]
  module := .bytes "conformance_test" ⟨.int 64, [.ptr, .int 64]⟩

/-- Where the function is called: the addresses of the input memory and of its stack, and what the memory and
the allocas of the registers contain. -/
structure Process where
  data : BitVec 64
  stackBase : BitVec 64
  mem : Mem
  allocas : Fin 12 → BitVec 64

/-- The pointer that is passed: null for an empty memory. -/
def Process.pointer (P : Process) (memBytes : List (BitVec 8)) : BitVec 64 :=
  if memBytes.isEmpty then 0 else P.data

/-- The memory with the input in it. -/
def Process.loaded (P : Process) (memBytes : List (BitVec 8)) : Mem := fun a =>
  (memBytes[(a - P.data).toNat]?).getD (P.mem a)

/-- `bpf_helper_unwind`. -/
def unwind : List RVal → RVal
  | r1 :: _ => r1
  | [] => .int (0 : BitVec 64)

/-- The lifted function in the process: the unspecified memory is zero, and `__bpf_helper_5` is
`bpf_helper_unwind`. -/
def Process.world (P : Process) (memBytes : List (BitVec 8)) : World where
  args i := if i = 0 then .ptr (.flat (P.pointer memBytes)) else .int (BitVec.ofNat 64 memBytes.length)
  unspec _ := 0
  stackBase := P.stackBase
  globals _ := 0
  callee f xs mem := (if f = helperName 5 then unwind xs else .int (0 : BitVec 64), mem)

/-- The functions that the lifted function calls are resolved. -/
def Linked (F : LFunction) : Prop := ∀ y ∈ F.insts, ∀ f ∈ Region.callees y.code, f = helperName 5

/-- `printf("%llx\n", r0)`. -/
def printed (r0 : BitVec 64) : String := String.ofList (Nat.toDigits 16 r0.toNat ++ ['\n'])

/-- The bytes that the test has: the input memory and the stack. -/
def Process.Owns (P : Process) (memBytes : List (BitVec 8)) (a : BitVec 64) : Prop :=
  (a - P.data).toNat < memBytes.length ∨ (a - P.stackBase).toNat < stackBytes

/-- The plugin comes to its end and prints `out`, whatever there is in memory that the test does not have. -/
def Prints (dis : Disassembler) (args : List String) (stdin : String) (P : Process) (out : String) : Prop :=
  ∃ bytes memBytes F, invocation args stdin = .ok (bytes, memBytes) ∧
    runBytes conformanceEnv dis bytes = .ok F ∧ Linked F ∧ ∃ r0 : BitVec 64, out = printed r0 ∧
      ∀ mem, Mem.Agree (P.Owns memBytes) (P.loaded memBytes) mem → ∃ mem' calls,
        .halted (.returned (some (.int r0)) mem' calls) ∈ eval F.step (fnStart (P.world memBytes) P.allocas mem)

/-! ## The machine of a conformance test -/

/-- The registers the test starts with. -/
def Process.regs (P : Process) (memBytes : List (BitVec 8)) : Regs := fun r =>
  if r = 1 then P.pointer memBytes
  else if r = 2 then BitVec.ofNat 64 memBytes.length
  else if r = 10 then P.stackBase + BitVec.ofNat 64 stackBytes
  else 0

/-- Helper 5 returns its first argument. -/
def unwindHelpers : Helpers := fun id args mem => (if id = 5 then args.headD 0 else 0, mem)

/-- The machine of a test; a call leaves zero in the registers it clobbers. -/
abbrev testMachine (prog : Nat → Option Insn) := bpfMachine prog unwindHelpers fun _ _ => 0

abbrev testStart (P : Process) (memBytes : List (BitVec 8)) :=
  bpfStart (P.regs memBytes) (P.loaded memBytes)

theorem unwindHelpers_inside (A : BitVec 64 → Prop) : unwindHelpers.Inside A :=
  fun _ _ _ _ hm => ⟨rfl, hm⟩

theorem helperName_eq_five {id : Int} (h : helperName id = helperName 5) : id = 5 := by
  cases id with
  | ofNat n => exact helperName_inj (Int.natCast_nonneg n) (by decide) h
  | negSucc n =>
    have hsign : toString (Int.negSucc n) = "-" ++ toString (n + 1) := rfl
    have hchars := congrArg String.toList h
    simp only [helperName, String.toList_append, List.append_cancel_left_eq, hsign] at hchars
    -- a negative number has a sign
    have hhead : some '-' = (toString (5 : Int)).toList.head? := congrArg List.head? hchars
    exact absurd hhead (by decide)

theorem Process.hosts (P : Process) (memBytes : List (BitVec 8)) :
    (P.world memBytes).Hosts unwindHelpers := by
  intro id args mem
  by_cases hid : id = 5
  · subst hid
    cases args <;> rfl
  · have hname : helperName id ≠ helperName 5 := fun h => hid (helperName_eq_five h)
    simp only [Process.world, unwindHelpers, if_neg hid, if_neg hname]

theorem leNat_zero (n : Nat) : leNat (fun _ => 0) n = 0 := by
  induction n with
  | zero => rfl
  | succ n ih =>
    rw [leNat, ih]
    rfl

theorem Process.junk (P : Process) (memBytes : List (BitVec 8)) (off w : Nat) :
    (P.world memBytes).junk off w = 0 := by
  have hread : read (P.world memBytes).unspec (off, (w + 7) / 8) = 0 := leNat_zero _
  rw [World.junk, hread]
  rfl

theorem conformanceEnv_args {i : Nat} {a : Argument} (h : conformanceEnv.srcArgs[i]? = some a) :
    i = 0 ∧ a = { ty := .ptr } ∨ i = 1 ∧ a = { ty := .int 64 } := by
  match i with
  | 0 => exact Or.inl ⟨rfl, (Option.some.inj h).symm⟩
  | 1 => exact Or.inr ⟨rfl, (Option.some.inj h).symm⟩
  | i + 2 => cases h

theorem Process.argsTyped (P : Process) (memBytes : List (BitVec 8)) :
    conformanceEnv.ArgsTyped (P.world memBytes) := by
  intro i a ha
  rcases conformanceEnv_args ha with ⟨rfl, rfl⟩ | ⟨rfl, rfl⟩
  · exact .ptr _
  · exact .int (by decide) _

/-- The unspecified state being zero, there is one run. -/
theorem Process.realises {G : Globals} (P : Process) (memBytes : List (BitVec 8))
    (hwr : Written { conformanceEnv with bytesMode := true } G F) :
    Realises { conformanceEnv with bytesMode := true } G F (P.world memBytes) (P.regs memBytes) fun _ _ => 0 where
  init := by
    refine ⟨rfl, fun i a ha => ?_, fun r h10 harg => ?_⟩
    · have ha' : conformanceEnv.srcArgs[i]? = some a := ha
      rcases conformanceEnv_args ha' with ⟨rfl, rfl⟩ | ⟨rfl, rfl⟩
      · rfl
      · exact (padded_full _ _).symm
    · have h1 : r ≠ 1 := harg 0 (by decide)
      have h2 : r ≠ 2 := harg 1 (by decide)
      simp only [Process.regs, if_neg h1, if_neg h2, if_neg h10, P.junk memBytes]
  calls y hy _ _ := by
    obtain ⟨names, succs, s, s', hn, hG, hcode, _⟩ := hwr.inst y hy
    exact ⟨names, succs, s, s', hn, hG, hcode, fun _ j _ => (P.junk memBytes _ 64).symm⟩

/-! ## Linking -/

theorem callees_of_straight {env : Env} {I : MCInst} {s s' : LState} {r : Region}
    (hI : I.opcode.isCall = false) (h : (region none (lift env I)).run s = .ok (r, s')) :
    Region.callees r = [] := by
  obtain ⟨hlift, rfl⟩ := region_run h
  have hnone : ∀ {s₁}, NoCall { s with code := ⟨[{ term := none }], 0⟩ } s₁ → Region.callees s₁.code = [] :=
    fun hp => List.perm_nil.mp hp
  by_cases hterm : I.opcode.isTerminator = true
  · exact hnone (lift_sat_terminator noCall_blockwise.toBlocks hterm _ _ _ hlift).1
  · exact hnone (lift_sat noCall_blockwise.compat (eq_false_of_ne_true hterm) hI _ _ _ hlift).1

theorem linked_of_calls (hdis : DisassemblerSpec dis) (hF : runBytes conformanceEnv dis bytes = .ok F)
    (hprog : Disassembles dis bytes prog) (hcalls : ∀ u id, prog u = some (.call id) → id = 5) : Linked F := by
  obtain ⟨insns, leaders, ds, MF, hinsns, hall, hchain, hinv, hw⟩ := runBytes_wired hdis hF
  have hlab := labelled_chain hdis hinsns hall
  obtain ⟨G, hwr⟩ := runBytes_written hdis hF
  intro y hy f hf
  obtain ⟨names, succs, s, s', _, _, hcode, _⟩ := hwr.inst y hy
  by_cases hcall : y.inst.opcode.isCall = true
  · have hop : y.inst.opcode = .JAL := by
      cases hy : y.inst.opcode with
      | JAL => rfl
      | _ => rw [hy] at hcall; cases hcall
    have hmem : y.inst ∈ entryJump :: ds.map (·.inst) := insts_of_filled hinv hw ▸ List.mem_map_of_mem hy
    rcases List.mem_cons.mp hmem with heq | hmem
    · rw [heq] at hop
      cases hop
    obtain ⟨d, hd, hdy⟩ := List.mem_map.mp hmem
    obtain ⟨i, l, hi, hopi, _, hops⟩ := program_inst hprog hlab hd
    rw [hdy] at hopi hops
    obtain ⟨id, rfl⟩ := eq_call (hopi.symm.trans hop)
    obtain rfl := hcalls _ _ hi
    have hcallees := (callees_region (by rfl) hop hops hcode).2
    rw [hcallees] at hf
    exact List.mem_singleton.mp hf
  · rw [callees_of_straight (eq_false_of_ne_true hcall) hcode] at hf
    cases hf

theorem decode_size (hdis : DisassemblerSpec dis) {fuel off : Nat} {ds : List DecodedInsn} (hoff : 8 ∣ off)
    (hle : off ≤ bytes.length) (h : decode dis bytes fuel off = .ok ds) : 8 ∣ bytes.length := by
  induction fuel generalizing off ds with
  | zero =>
    unfold decode at h
    split at h
    · have heq : bytes.length = off := by omega
      rwa [heq]
    · cases h
  | succ fuel ih =>
    unfold decode at h
    split at h
    · have heq : bytes.length = off := by omega
      rwa [heq]
    cases hd : dis (bytes.drop off) with
    | none =>
      rw [hd] at h
      cases h
    | some x =>
      obtain ⟨hsize, hlen⟩ := hdis.size _ _ hd
      rw [List.length_drop] at hlen
      simp only [hd, show ¬x.size = 0 by omega, if_false] at h
      split at h
      · cases h
      cases hr : decode dis bytes fuel (off + x.size) with
      | error e =>
        rw [hr] at h
        cases h
      | ok rest => exact ih (by omega) (by omega) hr

theorem runBytes_size {env : Env} (hdis : DisassemblerSpec dis) (hF : runBytes env dis bytes = .ok F) :
    bytes ≠ [] ∧ 8 ∣ bytes.length := by
  obtain ⟨insns, _, _, _, hinsns, _⟩ := runBytes_wired hdis hF
  unfold decodeProgram at hinsns
  cases hd : decode dis bytes bytes.length 0 with
  | error e =>
    rw [hd] at hinsns
    cases hinsns
  | ok ds =>
    refine ⟨?_, decode_size hdis (Nat.dvd_zero 8) (Nat.zero_le _) hd⟩
    rintro rfl
    cases hd
    cases hinsns

/-- **Conformance tests.** What the plugin prints is what the machine returns, for a program that is lifted
and calls helper 5 only, when the machine does not run past the end and accesses only what the test has. -/
theorem conformance_output (dis : Disassembler) (hdis : DisassemblerSpec dis) (args : List String) (stdin : String)
    (bytes memBytes : List (BitVec 8)) (hargs : ∀ a ∈ args, "--".toList.isPrefixOf a.toList = false)
    (hmem : Spells (args.getLastD "").toList memBytes) (hstdin : Spells stdin.toList bytes)
    (prog : Nat → Option Insn) (hprog : Disassembles dis bytes prog)
    (hcalls : ∀ u id, prog u = some (.call id) → id = 5) (F : LFunction)
    (hF : runBytes conformanceEnv dis bytes = .ok F) (P : Process)
    (hsafe : (testMachine prog).Safe (testStart P memBytes))
    (hinside : StaysInside prog unwindHelpers (fun _ _ => 0) (P.Owns memBytes) (testStart P memBytes))
    (out : String) :
    Prints dis args stdin P out ↔ ∃ r0 mem calls,
      .halted (.returned r0 mem calls) ∈ eval (testMachine prog).step (testStart P memBytes) ∧
        out = printed r0 := by
  obtain ⟨hne, hsize⟩ := runBytes_size hdis hF
  have hinv := invocation_spelled hargs hmem hstdin hne hsize
  obtain ⟨G, hwr⟩ := runBytes_written hdis hF
  have hruns : RunsAs conformanceEnv F (P.world memBytes) prog unwindHelpers (P.regs memBytes) fun _ _ => 0 :=
    (P.realises memBytes hwr).runs hdis hF hprog (P.hosts memBytes) (P.argsTyped memBytes)
  constructor
  · rintro ⟨_, _, F', hinv', hF', _, r0, rfl, hprints⟩
    obtain ⟨rfl, rfl⟩ := Prod.mk.inj (Except.ok.inj (hinv.symm.trans hinv'))
    obtain rfl := Except.ok.inj (hF.symm.trans hF')
    obtain ⟨mem, calls, hhalt⟩ := hprints _ fun _ _ => rfl
    obtain ⟨o, ho, heq⟩ := (hruns P.allocas (P.loaded memBytes) hsafe _).mp hhalt
    cases o with
    | unaligned => cases heq
    | aborted => cases heq
    | returned x m cs =>
      cases heq
      exact ⟨r0, mem, cs, ho, rfl⟩
  · rintro ⟨r0, mem, calls, hhalt, rfl⟩
    refine ⟨bytes, memBytes, F, hinv, hF, linked_of_calls hdis hF hprog hcalls, r0, rfl, fun mem' hagree => ?_⟩
    obtain ⟨m', hhalt'⟩ := returns_agree (unwindHelpers_inside _) hinside hagree hhalt
    exact ⟨m', calls.map HelperCall.lifted,
      (hruns P.allocas mem' (Machine.safe_of_halts hhalt') _).mpr ⟨_, hhalt', rfl⟩⟩

/-! ## A test -/

/-- The input memory is at 4096. -/
def unwindProcess : Process where
  data := 4096
  stackBase := 65536
  mem _ := 0
  allocas _ := 0

/-- `call 5; r0 = *(u8 *)(r0 + 0); exit`. -/
def unwindBytes : List (BitVec 8) :=
  [0x85, 0, 0, 0, 5, 0, 0, 0, 0x71, 0, 0, 0, 0, 0, 0, 0, 0x95, 0, 0, 0, 0, 0, 0, 0]

def unwindProg : Nat → Option Insn
  | 0 => some (.call 5)
  | 1 => some (.mem (.load .u8 0 0 0))
  | 2 => some .exit
  | _ => none

/-- Its instructions, as LLVM disassembles them. -/
def unwindDisassembler : Disassembler := fun bs =>
  if bs.take 8 = [0x71, 0, 0, 0, 0, 0, 0, 0] then some ⟨.LDB, [.reg (.R 0), .reg (.R 0), .imm 0], 8⟩
  else callDisassembler bs

theorem unwindDisassembler_spec : DisassemblerSpec unwindDisassembler where
  size bs d h := by
    unfold unwindDisassembler at h
    split at h
    · rename_i htake
      cases h
      have hlen := congrArg List.length htake
      rw [List.length_take] at hlen
      exact ⟨Or.inl rfl, by simpa using hlen⟩
    · exact callDisassembler_spec.size bs d h
  branch bs d h hbr := by
    unfold unwindDisassembler at h
    split at h
    · cases h
      cases hbr
    · exact callDisassembler_spec.branch bs d h hbr

theorem unwind_boundary {u : Nat} (h : Boundary unwindDisassembler unwindBytes u) :
    u = 0 ∨ u = 1 ∨ u = 2 ∨ u = 3 := by
  have hsize : ∀ x, unwindDisassembler (unitBytes unwindBytes 0) = some x ∨
      unwindDisassembler (unitBytes unwindBytes 1) = some x ∨
      unwindDisassembler (unitBytes unwindBytes 2) = some x → x.size = 8 := by
    rintro x (h | h | h) <;> cases h <;> rfl
  induction h with
  | start => exact Or.inl rfl
  | @next u x _ hx ih =>
    obtain rfl | rfl | rfl | rfl := ih
    · rw [hsize x (Or.inl hx)]
      exact Or.inr (Or.inl rfl)
    · rw [hsize x (Or.inr (Or.inl hx))]
      exact Or.inr (Or.inr (Or.inl rfl))
    · rw [hsize x (Or.inr (Or.inr hx))]
      exact Or.inr (Or.inr (Or.inr rfl))
    · cases hx

theorem unwind_disassembles : Disassembles unwindDisassembler unwindBytes unwindProg := by
  intro u hu
  obtain rfl | rfl | rfl | rfl := unwind_boundary hu
  · exact .some ⟨rfl, rfl, [.imm32 5], ⟨rfl, .cons (Or.inl rfl) .nil⟩, rfl⟩
  · exact .some ⟨rfl, rfl, [.reg (.R 0), .reg (.R 0), .off16 0],
      ⟨rfl, .cons rfl (.cons rfl (.cons (Or.inl rfl) .nil))⟩, rfl⟩
  · exact .some ⟨rfl, rfl, [], ⟨rfl, .nil⟩, rfl⟩
  · exact .none

theorem unwind_states {k : Int} {s : BpfState HelperCall} (h : Reaches (testMachine unwindProg).step
    (testStart unwindProcess [0xaa, 0xbb]) (.running k s)) : k = 0 ∨ k = 1 ∧ s.regs 0 = 4096 ∨ k = 2 := by
  rcases h.cases_head with heq | ⟨b, hb, h⟩
  · cases heq
    exact Or.inl rfl
  cases hb
  rcases h.cases_head with heq | ⟨b, hb, h⟩
  · cases heq
    exact Or.inr (Or.inl ⟨rfl, rfl⟩)
  cases hb
  rcases h.cases_head with heq | ⟨b, hb, h⟩
  · cases heq
    exact Or.inr (Or.inr rfl)
  cases hb
  rcases h.cases_head with heq | ⟨b, hb, h⟩
  · cases heq
  · cases hb

theorem unwind_inside : StaysInside unwindProg unwindHelpers (fun _ _ => 0) (unwindProcess.Owns [0xaa, 0xbb])
    (testStart unwindProcess [0xaa, 0xbb]) := by
  intro k s i h hi
  rcases unwind_states h with rfl | ⟨rfl, hs⟩ | rfl
  · cases hi
    exact ⟨nofun, nofun⟩
  · cases hi
    refine ⟨fun a n ha j hj => ?_, nofun⟩
    cases ha
    obtain rfl : j = 0 := Nat.lt_one_iff.mp hj
    show unwindProcess.Owns [0xaa, 0xbb] (s.regs 0 + _ + _)
    rw [hs]
    exact Or.inl (by decide)
  · cases hi
    exact ⟨nofun, nofun⟩

theorem unwind_halts : ∃ mem calls, .halted (.returned 0xaa mem calls) ∈
    eval (testMachine unwindProg).step (testStart unwindProcess [0xaa, 0xbb]) := by
  have hhalt : ∃ r0 mem calls, .halted (.returned r0 mem calls) ∈
      eval (testMachine unwindProg).step (testStart unwindProcess [0xaa, 0xbb]) ∧ r0 = 0xaa :=
    ⟨_, _, _, mem_eval.mpr ⟨.tail (.tail (.single rfl) rfl) rfl, rfl⟩, by decide +kernel⟩
  obtain ⟨_, mem, calls, hhalt, rfl⟩ := hhalt
  exact ⟨mem, calls, hhalt⟩

/-- Helper 5 returns the address of the input memory. -/
theorem conformance_output_unwind : Prints unwindDisassembler ["00", "aa bb"]
    "85 00 00 00 05 00 00 00\n71 00 00 00 00 00 00 00\n95 00 00 00 00 00 00 00\n" unwindProcess "aa\n" := by
  have hcalls : ∀ u id, unwindProg u = some (.call id) → id = 5 := by
    intro u id h
    match u with
    | 0 => exact (Insn.call.inj (Option.some.inj h)).symm
    | 1 | 2 => cases h
    | u + 3 => cases h
  obtain ⟨F, hF⟩ : ∃ F, runBytes conformanceEnv unwindDisassembler unwindBytes = .ok F :=
    ok_of_isSome (by decide +kernel)
  obtain ⟨mem, calls, hhalt⟩ := unwind_halts
  refine (conformance_output unwindDisassembler unwindDisassembler_spec ["00", "aa bb"] _ unwindBytes [0xaa, 0xbb]
    (by decide) (by decide +kernel) (by decide +kernel) unwindProg unwind_disassembles hcalls F hF unwindProcess
    (Machine.safe_of_halts hhalt) unwind_inside _).mpr ⟨_, _, _, hhalt, ?_⟩
  decide +kernel

end BpfTv.Conformance
