import GitTest.Lib.CText
import GitTest.Lib.Conditional

/-!
# System call numbers (libc/tools/gensyscalls.py, libc/tools/bionic_utils.py)

`SysCallsTxtParser` reads the lines of SYSCALLS.TXT, and `gen_linux_syscalls_h` writes the header
with the `__NR_` macros: one section for all architectures and one for each.

    where lines with one name have the same numbers, every translation unit gets the numbers of
      its architecture and no others ↔ no line is named SYSCALL_BASE, and a SuperH number differs
      from an x86 number only if this one is negative, or the first is not and the ARM number is
      not the x86 number  (numbers_right_iff)

The header's own macros decide none of its conditions, so the conditions are of the macros that
are defined before.
-/

namespace Tools.Syscalls

open List Conditional

/-! ## SYSCALLS.TXT -/

abbrev Text := List Char

/-- What the header is made of in a line. -/
structure Syscall where
  id : Int
  id2 : Int
  id3 : Int
  name : Text
  deriving DecidableEq

def isSpace (c : Char) : Bool := c ∈ [' ', '\t', '\n', '\r', '\x0b', '\x0c']

def strip (s : Text) : Text := ((s.dropWhile isSpace).reverse.dropWhile isSpace).reverse

def digits (s : Text) : Option Int :=
  if s = [] then none else (CGrammar.readDigits 10 s).map Int.ofNat

/-- `int(s)` of Python 2, where blanks may follow the sign; `none` is an exception. -/
def int (s : Text) : Option Int :=
  match strip s with
  | '-' :: s => (digits (strip s)).map fun n => -n
  | '+' :: s => digits (strip s)
  | s => digits s

/-- The name in `func_name[:syscall_name[:call_id]]`.  The parser's `E` takes no message, so that
every error raises. -/
def parseFunc (func : Text) : Option Text :=
  match func.span (· ≠ ':') with
  | (_, []) => some func
  | ([], _) => none
  | (_, [_]) => none
  | (_, _ :: rest) =>
    match rest.span (· ≠ ':') with
    | (_, []) => some rest
    | (_, [_]) => none
    | (name, _ :: callId) => (int callId).map fun _ => name

def parseNumbers (number : Text) : Option (Int × Int × Int) :=
  if number = "stub".toList then some (-1, -1, -1)
  else
    match number with
    | [] => none
    | c :: rest =>
      match ((if c = '#' then strip rest else number).splitOn ',').map int with
      | [some id] => some (id, id, id)
      | [some id, some id2] => some (id, id2, id2)
      | some id :: some id2 :: some id3 :: _ => some (id, id2, id3)
      | _ => none

/-- From the first left to the last right parenthesis are the parameters. -/
def parseLine (line : Text) : Option Syscall :=
  match line.span (· ≠ '(') with
  | (_, []) => none
  | (head, _ :: rest) =>
    match rest.reverse.span (· ≠ ')'), ((head.splitOnP isSpace).filter (· ≠ [])).reverse with
    | (number, _ :: _), func :: _ :: _ =>
      (parseFunc func).bind fun name =>
        (parseNumbers (strip number.reverse)).map fun (id, id2, id3) => ⟨id, id2, id3, name⟩
    | _, _ => none

def parseFile (text : Text) : Option (List Syscall) :=
  (((text.splitOn '\n').map strip).filter fun l => l ≠ [] ∧ l.head? ≠ some '#').mapM parseLine

/-! ## The header -/

/-- A number, or a number above `__NR_SYSCALL_BASE`. -/
inductive Body
  | literal (n : Nat)
  | aboveBase (id : Int)
  deriving DecidableEq

abbrev Define := Text × Body

def nr (name : Text) : Text := "__NR_".toList ++ name

def syscallBase : Text := "SYSCALL_BASE".toList

def genNRSyscall (name : Text) (id : Int) : Define := (nr name, .aboveBase id)

def common (syscalls : List Syscall) : List Define :=
  (syscalls.filter fun sc => sc.id = sc.id2 ∧ 0 ≤ sc.id).map fun sc => genNRSyscall sc.name sc.id

def armSpecific (syscalls : List Syscall) : List Define :=
  (syscalls.filter fun sc => sc.id ≠ sc.id2 ∧ 0 ≤ sc.id).map fun sc => genNRSyscall sc.name sc.id

/-- The names in `gen_syscalls` are not written again. -/
def i386Specific (gen : List Text) : List Syscall → List Define
  | [] => []
  | sc :: rest =>
    if sc.id ≠ sc.id2 ∧ 0 ≤ sc.id2 ∧ ¬ gen.contains sc.name then
      genNRSyscall sc.name sc.id2 :: i386Specific (sc.name :: gen) rest
    else i386Specific gen rest

def superhSpecific (syscalls : List Syscall) : List Define :=
  syscalls.filterMap fun sc =>
    if sc.id2 ≠ sc.id3 ∧ 0 ≤ sc.id3 then some (genNRSyscall sc.name sc.id3)
    else if sc.id ≠ sc.id2 ∧ 0 ≤ sc.id2 then some (genNRSyscall sc.name sc.id2)
    else none

/-- A condition is a function of which names are defined. -/
abbrev Directive := Line Define Unit ((String → Bool) → Bool)

def guarded (c : (String → Bool) → Bool) (defs : List Define) : List Directive :=
  .ifLine () c :: (defs.map .plain ++ [.endifLine ()])

def genLinuxSyscallsH (syscalls : List Syscall) : List Directive :=
  .ifLine () (fun m => !m "_BIONIC_LINUX_SYSCALLS_H_") ::
  .ifLine () (fun m => !m "__ASM_ARM_UNISTD_H" && !m "__ASM_I386_UNISTD_H") ::
  .ifLine () (fun m => m "__arm__" && !m "__ARM_EABI__" && !m "__thumb__") ::
  .plain (nr syscallBase, .literal 0x900000) ::
  .elseLine () ::
  .plain (nr syscallBase, .literal 0) ::
  .endifLine () ::
  ((common syscalls).map Line.plain ++
    (guarded (fun m => m "__arm__") (armSpecific syscalls) ++
    (guarded (fun m => m "__i386__") (i386Specific [] syscalls) ++
    (guarded (fun m => m "__SH3__" || m "__SH4__") (superhSpecific syscalls) ++
      [.endifLine (), .endifLine ()]))))

/-- What a translation unit with the names `m` sees. -/
def sees (m : String → Bool) (syscalls : List Syscall) : Option (List Define) :=
  keep (fun c => some (c m)) (genLinuxSyscallsH syscalls)

/-! ## The numbers of an architecture -/

inductive Arch
  | arm
  | x86
  | superh
  deriving DecidableEq

def Syscall.number (sc : Syscall) : Arch → Int
  | .arm => sc.id
  | .x86 => sc.id2
  | .superh => sc.id3

/-- The compiler's names for the architecture; no header has replaced this one. -/
structure ForArch (arch : Arch) (m : String → Bool) : Prop where
  arm : m "__arm__" = decide (arch = .arm)
  x86 : m "__i386__" = decide (arch = .x86)
  superh : (m "__SH3__" || m "__SH4__") = decide (arch = .superh)
  own : m "_BIONIC_LINUX_SYSCALLS_H_" = false
  unistd : m "__ASM_ARM_UNISTD_H" = false ∧ m "__ASM_I386_UNISTD_H" = false

structure Right (arch : Arch) (syscalls : List Syscall) (defs : List Define) : Prop where
  defined : ∀ sc ∈ syscalls, 0 ≤ sc.number arch → (nr sc.name, .aboveBase (sc.number arch)) ∈ defs
  undefined : ∀ sc ∈ syscalls, sc.number arch < 0 → ∀ v, (nr sc.name, v) ∉ defs
  single : ∀ n v w, (n, v) ∈ defs → (n, w) ∈ defs → v = w

/-- Lines with one name have the same numbers. -/
def Consistent (syscalls : List Syscall) : Prop :=
  ∀ sc ∈ syscalls, ∀ sc' ∈ syscalls, sc.name = sc'.name →
    sc.id = sc'.id ∧ sc.id2 = sc'.id2 ∧ sc.id3 = sc'.id3

def own (syscalls : List Syscall) : Arch → List Define
  | .arm => armSpecific syscalls
  | .x86 => i386Specific [] syscalls
  | .superh => superhSpecific syscalls

section
variable {arch : Arch} {m : String → Bool} {syscalls : List Syscall} {d : Define}

theorem sees_eq (hm : ForArch arch m) (syscalls : List Syscall) : ∃ n, sees m syscalls =
    some ((nr syscallBase, .literal n) :: (common syscalls ++ own syscalls arch)) := by
  obtain ⟨h1, h2, h3, h4, h5, h6⟩ := hm
  unfold sees genLinuxSyscallsH keep
  cases arch with
  | arm =>
    -- the base depends on two more names of the compiler
    cases h7 : m "__ARM_EABI__" <;> cases h8 : m "__thumb__" <;>
      simp [guarded, keepFrom, keepFrom_map_plain, processed, own, *]
  | x86 | superh => simp [guarded, keepFrom, keepFrom_map_plain, processed, own, *]

theorem nr_inj {n n' : Text} : nr n = nr n' ↔ n = n' := append_right_inj _

/-- The section of i386 leaves out only what is there already. -/
theorem mem_i386Specific (hs : Consistent syscalls) (gen : List Text) :
    d ∈ i386Specific gen syscalls ↔ ∃ sc ∈ syscalls, sc.name ∉ gen ∧
      (sc.id ≠ sc.id2 ∧ 0 ≤ sc.id2) ∧ genNRSyscall sc.name sc.id2 = d := by
  induction syscalls generalizing gen with
  | nil => simp [i386Specific]
  | cons sc rest ih =>
    have ih := ih fun a ha b hb => hs a (mem_cons_of_mem _ ha) b (mem_cons_of_mem _ hb)
    have hsc := hs sc mem_cons_self
    grind [i386Specific, genNRSyscall]

theorem mem_superhSpecific : d ∈ superhSpecific syscalls ↔ ∃ sc ∈ syscalls,
    (sc.id2 ≠ sc.id3 ∧ 0 ≤ sc.id3) ∧ genNRSyscall sc.name sc.id3 = d ∨
      ¬ (sc.id2 ≠ sc.id3 ∧ 0 ≤ sc.id3) ∧ (sc.id ≠ sc.id2 ∧ 0 ≤ sc.id2) ∧
        genNRSyscall sc.name sc.id2 = d := by
  simp only [superhSpecific, mem_filterMap]
  grind

theorem mem_common : d ∈ common syscalls ↔
    ∃ sc ∈ syscalls, (sc.id = sc.id2 ∧ 0 ≤ sc.id) ∧ genNRSyscall sc.name sc.id = d := by
  simp [common, and_assoc]

/-- The x86 number of a line that SuperH units see whatever their own number is. -/
theorem seen_superh {sc : Syscall} (hsc : sc ∈ syscalls)
    (h : 0 ≤ sc.id2 ∧ (sc.id = sc.id2 ∨ sc.id3 < 0)) :
    genNRSyscall sc.name sc.id2 ∈ common syscalls ++ own syscalls .superh := by
  by_cases he : sc.id = sc.id2
  · exact mem_append_left _ (mem_common.2 ⟨sc, hsc, by omega, by rw [he]⟩)
  · exact mem_append_right _ (mem_superhSpecific.2 ⟨sc, hsc, .inr ⟨by omega, ⟨he, h.1⟩, rfl⟩⟩)

theorem right_of_mem (hs : Consistent syscalls) (hname : ∀ sc ∈ syscalls, sc.name ≠ syscallBase)
    (n : Nat) {defs : List Define} (hmem : ∀ d, d ∈ defs ↔ ∃ sc ∈ syscalls,
      0 ≤ sc.number arch ∧ genNRSyscall sc.name (sc.number arch) = d) :
    Right arch syscalls ((nr syscallBase, .literal n) :: defs) := by
  have hval : ∀ sc ∈ syscalls, ∀ v, (nr sc.name, v) ∈ (nr syscallBase, .literal n) :: defs →
      0 ≤ sc.number arch ∧ v = .aboveBase (sc.number arch) := by
    intro sc hsc v hv
    rcases mem_cons.1 hv with he | hv
    · exact absurd (nr_inj.1 (Prod.mk.inj he).1) (hname sc hsc)
    · obtain ⟨sc', hsc', h0, he⟩ := (hmem _).1 hv
      obtain ⟨hn, rfl⟩ := Prod.mk.inj he
      obtain ⟨h1, h2, h3⟩ := hs sc' hsc' sc hsc (nr_inj.1 hn)
      have hsame : sc'.number arch = sc.number arch := by cases arch <;> assumption
      exact ⟨hsame ▸ h0, by rw [hsame]⟩
  refine ⟨fun sc hsc h0 => mem_cons_of_mem _ ((hmem _).2 ⟨sc, hsc, h0, rfl⟩), ?_, ?_⟩
  · intro sc hsc hneg v hv
    have := (hval sc hsc v hv).1
    omega
  · intro x v w hv hw
    rcases mem_cons.1 hv with he | hv'
    · obtain ⟨rfl, rfl⟩ := Prod.mk.inj he
      rcases mem_cons.1 hw with he' | hw
      · exact (Prod.mk.inj he').2.symm
      · obtain ⟨sc, hsc, -, he'⟩ := (hmem _).1 hw
        exact absurd (nr_inj.1 (Prod.mk.inj he').1) (hname sc hsc)
    · obtain ⟨sc, hsc, -, he⟩ := (hmem _).1 hv'
      obtain ⟨rfl, -⟩ := Prod.mk.inj he
      rw [(hval sc hsc v hv).2, (hval sc hsc w hw).2]

/-- **The system call numbers.**  Every architecture gets its own from the header, under a condition
on each line. -/
theorem numbers_right_iff (text : Text) : ∀ syscalls ∈ parseFile text, Consistent syscalls →
    ((∀ arch m, ForArch arch m → ∃ defs, sees m syscalls = some defs ∧ Right arch syscalls defs) ↔
      ∀ sc ∈ syscalls, sc.name ≠ syscallBase ∧
        (sc.id3 = sc.id2 ∨ sc.id2 < 0 ∨ 0 ≤ sc.id3 ∧ sc.id ≠ sc.id2)) := by
  intro syscalls _ hs
  constructor
  · intro h sc hsc
    have hm : ForArch .superh (fun s => s = "__SH4__") := by constructor <;> decide
    obtain ⟨defs, hsees, hright⟩ := h .superh _ hm
    obtain ⟨n, heq⟩ := sees_eq hm syscalls
    cases hsees.symm.trans heq
    have hdef := hright.defined sc hsc
    have hundef := hright.undefined sc hsc
    constructor
    · intro hname
      rw [hname] at hdef hundef
      rcases Int.lt_or_le (sc.number .superh) 0 with h0 | h0
      · exact hundef h0 _ mem_cons_self
      · cases hright.single _ _ _ mem_cons_self (hdef h0)
    · by_contra hbad
      have hseen := mem_cons_of_mem (nr syscallBase, .literal n) (seen_superh hsc (by omega))
      rcases Int.lt_or_le sc.id3 0 with h0 | h0
      · exact hundef h0 _ hseen
      · have hsame := Body.aboveBase.inj (hright.single _ _ _ hseen (hdef h0))
        simp only [Syscall.number] at hsame
        omega
  · intro hgood arch m hm
    obtain ⟨n, heq⟩ := sees_eq hm syscalls
    refine ⟨_, heq, right_of_mem hs (fun sc hsc => (hgood sc hsc).1) n fun d => ?_⟩
    rw [mem_append, mem_common]
    cases arch with
    | arm =>
      simp only [own, armSpecific, mem_map, mem_filter, decide_eq_true_eq, Syscall.number]
      grind
    | x86 =>
      rw [own, mem_i386Specific hs]
      simp only [Syscall.number]
      grind
    | superh =>
      rw [own, mem_superhSpecific]
      simp only [Syscall.number]
      grind

end

/-- The line of `inotify_init`, with three numbers. -/
theorem numbers_right_inotify : ∃ sc,
    parseFile "int inotify_init(void) 316,291,290".toList = some [sc] ∧
    ∀ arch m, ForArch arch m → ∃ defs, sees m [sc] = some defs ∧ Right arch [sc] defs := by
  have h : parseFile "int inotify_init(void) 316,291,290".toList =
      some [⟨316, 291, 290, "inotify_init".toList⟩] := by decide
  exact ⟨_, h, (numbers_right_iff _ _ h (by unfold Consistent; decide)).2 (by decide)⟩

/-- The line of `pipe`: SuperH units see 42, though SuperH has no such call. -/
theorem pipe_seen : ∃ sc, parseFile "int         pipe(int *)  42,42,-1".toList = some [sc] ∧
    sc.number .superh = -1 ∧ ForArch .superh (fun s => s = "__SH4__") ∧
    sees (fun s => s = "__SH4__") [sc] =
      some [(nr syscallBase, .literal 0), (nr sc.name, .aboveBase 42)] :=
  ⟨_, rfl, rfl, by constructor <;> decide, rfl⟩

end Tools.Syscalls
