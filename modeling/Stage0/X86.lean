import Mathlib

set_option autoImplicit false

/-!
# A part of x86-64 and its functions

Registers, memory by bytes, and the zero flag, which some instructions leave undefined.
Where an instruction is in memory, and where the next one begins, is a parameter. A
function is a piece of code that is called and returns by the System V convention.
-/
namespace Stage0.X86

inductive Reg where
  | rax | rbx | rcx | rdx | rsi | rdi | rbp | rsp
  | r8 | r9 | r10 | r11 | r12 | r13 | r14 | r15
  deriving DecidableEq, Repr

inductive Width where
  | byte | word | long | quad
  deriving DecidableEq, Repr

@[reducible] def Width.bits : Width → ℕ
  | .byte => 8
  | .word => 16
  | .long => 32
  | .quad => 64

abbrev Quad := BitVec 64

abbrev Memory := Quad → BitVec 8

/-- Little-endian. -/
def load (m : Memory) (a : Quad) : Quad :=
  BitVec.ofFnLE fun i : Fin 64 => (m (a + BitVec.ofNat 64 (i / 8))).getLsbD (i % 8)

def store (m : Memory) (a v : Quad) : Memory := fun x =>
  if (x - a).toNat < 8 then v.extractLsb' (8 * (x - a).toNat) 8 else m x

/-- A write of part of a register: 32 bits clear the upper half, fewer keep the rest. -/
def merge : (w : Width) → Quad → BitVec w.bits → Quad
  | .byte, old, v => old.extractLsb' 8 56 ++ v
  | .word, old, v => old.extractLsb' 16 48 ++ v
  | .long, _, v => v.setWidth 64
  | .quad, _, v => v

structure Core where
  regs : Reg → Quad
  mem : Memory
  zf : Option Bool

namespace Core

def get (c : Core) (w : Width) (r : Reg) : BitVec w.bits := (c.regs r).setWidth w.bits

def set (c : Core) (w : Width) (r : Reg) (v : BitVec w.bits) : Core :=
  { c with regs := Function.update c.regs r (merge w (c.regs r) v) }

def setFlag (c : Core) (z : Option Bool) : Core := { c with zf := z }

def push (c : Core) (v : Quad) : Core :=
  let sp := c.regs .rsp - 8
  { c with regs := Function.update c.regs .rsp sp, mem := store c.mem sp v }

def pop (c : Core) : Quad × Core :=
  (load c.mem (c.regs .rsp), { c with regs := Function.update c.regs .rsp (c.regs .rsp + 8) })

@[simp] theorem set_self (c : Core) (w : Width) (r : Reg) (v : BitVec w.bits) :
    (c.set w r v).regs r = merge w (c.regs r) v := Function.update_self _ _ _

@[simp] theorem set_regs (c : Core) {w : Width} {r : Reg} (v : BitVec w.bits) {r' : Reg} (h : r' ≠ r) :
    (c.set w r v).regs r' = c.regs r' := Function.update_of_ne h _ _

@[simp] theorem set_mem (c : Core) (w : Width) (r : Reg) (v : BitVec w.bits) : (c.set w r v).mem = c.mem := rfl

@[simp] theorem set_zf (c : Core) (w : Width) (r : Reg) (v : BitVec w.bits) : (c.set w r v).zf = c.zf := rfl

@[simp] theorem setFlag_regs (c : Core) (z : Option Bool) : (c.setFlag z).regs = c.regs := rfl

@[simp] theorem setFlag_mem (c : Core) (z : Option Bool) : (c.setFlag z).mem = c.mem := rfl

@[simp] theorem setFlag_zf (c : Core) (z : Option Bool) : (c.setFlag z).zf = z := rfl

@[simp] theorem push_rsp (c : Core) (v : Quad) : (c.push v).regs .rsp = c.regs .rsp - 8 := rfl

@[simp] theorem push_mem (c : Core) (v : Quad) : (c.push v).mem = store c.mem (c.regs .rsp - 8) v := rfl

theorem push_regs (c : Core) (v : Quad) {r : Reg} (h : r ≠ .rsp) : (c.push v).regs r = c.regs r :=
  Function.update_of_ne h _ _

@[simp] theorem pop_rsp (c : Core) : c.pop.2.regs .rsp = c.regs .rsp + 8 := rfl

@[simp] theorem pop_mem (c : Core) : c.pop.2.mem = c.mem := rfl

theorem pop_regs (c : Core) {r : Reg} (h : r ≠ .rsp) : c.pop.2.regs r = c.regs r :=
  Function.update_of_ne h _ _

end Core

inductive Source where
  | reg (r : Reg)
  | imm (n : BitVec 32)
  deriving DecidableEq, Repr

def Source.value (c : Core) (w : Width) : Source → BitVec w.bits
  | .reg r => c.get w r
  | .imm n => n.signExtend w.bits

/-- `(base)` or `(base, index, scale)`. -/
structure Address where
  base : Reg
  index : Option (Reg × ℕ)
  deriving DecidableEq, Repr

def Address.value (c : Core) (a : Address) : Quad :=
  c.regs a.base + match a.index with
    | none => 0
    | some (r, scale) => c.regs r * BitVec.ofNat 64 scale

inductive Alu where
  | add | sub | imul | xor | and | or
  deriving DecidableEq, Repr

def Alu.value {n : ℕ} (x y : BitVec n) : Alu → BitVec n
  | .add => x + y
  | .sub => x - y
  | .imul => x * y
  | .xor => x ^^^ y
  | .and => x &&& y
  | .or => x ||| y

/-- A multiplication leaves the zero flag undefined. -/
def Alu.flag {n : ℕ} (r : BitVec n) : Alu → Option Bool
  | .imul => none
  | _ => some (decide (r = 0))

inductive Shift where
  | sal | shr | sar
  deriving DecidableEq, Repr

def Shift.value {n : ℕ} (x : BitVec n) (k : ℕ) : Shift → BitVec n
  | .sal => x <<< k
  | .shr => x >>> k
  | .sar => x.sshiftRight k

inductive Count where
  | imm (n : ℕ)
  | cl
  deriving DecidableEq, Repr

/-- The processor looks at the lowest five or six bits only. -/
def Count.value (c : Core) (w : Width) (k : Count) : ℕ :=
  (match k with
    | .imm n => n
    | .cl => (c.get .byte .rcx).toNat) % (if w = .quad then 64 else 32)

inductive Basic where
  | mov (w : Width) (src : Source) (dst : Reg)
  | load (src : Address) (dst : Reg)
  | store (src : Reg) (dst : Address)
  | lea (w : Width) (src : Address) (dst : Reg)
  | movzbl (src dst : Reg)
  | alu (op : Alu) (w : Width) (src : Source) (dst : Reg)
  | shift (op : Shift) (w : Width) (count : Count) (dst : Reg)
  | sete (dst : Reg)
  | push (src : Reg)
  | pop (dst : Reg)
  deriving DecidableEq, Repr

def Basic.exec (c : Core) : Basic → Option Core
  | .mov w src dst => some (c.set w dst (src.value c w))
  | .load src dst => some (c.set .quad dst (X86.load c.mem (src.value c)))
  | .store src dst => some { c with mem := X86.store c.mem (dst.value c) (c.regs src) }
  | .lea w src dst => some (c.set w dst ((src.value c).setWidth w.bits))
  | .movzbl src dst => some (c.set .long dst ((c.get .byte src).setWidth 32))
  | .alu op w src dst =>
    let r := op.value (c.get w dst) (src.value c w)
    some ((c.set w dst r).setFlag (op.flag r))
  | .shift op w count dst =>
    let k := count.value c w
    let r := op.value (c.get w dst) k
    some ((c.set w dst r).setFlag (if k = 0 then c.zf else some (decide (r = 0))))
  | .sete dst => c.zf.map fun z => c.set .byte dst (if z then 1 else 0)
  | .push src => some (c.push (c.regs src))
  | .pop dst =>
    let (v, c) := c.pop
    some (c.set .quad dst v)

inductive Instr where
  | basic (b : Basic)
  | call (f : Quad)
  | ret
  deriving DecidableEq, Repr

abbrev Code := Quad → Option (Instr × Quad)

structure State where
  core : Core
  rip : Quad

def step (code : Code) (s : State) : Option State :=
  (code s.rip).bind fun (i, next) =>
    match i with
    | .basic b => (b.exec s.core).map fun c => ⟨c, next⟩
    | .call f => some ⟨s.core.push next, f⟩
    | .ret => some ⟨s.core.pop.2, s.core.pop.1⟩

def Steps (code : Code) : State → State → Prop :=
  Relation.ReflTransGen fun s t => step code s = some t

/-! ### Memory -/

theorem store_outside {m : Memory} {a x : Quad} (v : Quad) (h : 8 ≤ (x - a).toNat) :
    store m a v x = m x := if_neg (by omega)

theorem load_congr {m m' : Memory} {a : Quad} (h : ∀ x : Quad, (x - a).toNat < 8 → m x = m' x) :
    load m a = load m' a := by
  unfold load
  congr 1
  funext i
  rw [h]
  have hi := i.isLt
  rw [add_sub_cancel_left, BitVec.toNat_ofNat]
  omega

theorem load_store (m : Memory) (a v : Quad) : load (store m a v) a = v := by
  ext i hi
  rw [load, BitVec.getElem_ofFnLE]
  have hoff : (a + BitVec.ofNat 64 (i / 8) - a).toNat = i / 8 := by
    rw [add_sub_cancel_left, BitVec.toNat_ofNat]
    omega
  simp only [store, hoff]
  rw [if_pos (by omega), BitVec.getLsbD_extractLsb', BitVec.getLsbD_eq_getElem (by omega)]
  simp only [show i % 8 < 8 from Nat.mod_lt _ (by decide), decide_true, Bool.true_and]
  congr 1
  omega

def Apart (a b : Quad) : Prop := 8 ≤ (a - b).toNat ∧ 8 ≤ (b - a).toNat

theorem load_apart {m : Memory} {a b : Quad} (v : Quad) (h : Apart a b) :
    load (store m b v) a = load m a := by
  apply load_congr
  intro x hx
  apply store_outside
  obtain ⟨h₁, h₂⟩ := h
  bv_omega

def Below (sp : Quad) (n : ℕ) (x : Quad) : Prop := 1 ≤ (sp - x).toNat ∧ (sp - x).toNat ≤ n

/-! ### Straight code -/

def calleeSaved : List Reg := [.rbx, .rbp, .r12, .r13, .r14, .r15]

theorem calleeSaved_ne {r : Reg} (h : r ∈ calleeSaved) : r ≠ .rsp := by
  rintro rfl
  exact absurd h (by decide)

def run : List Basic → Core → Option Core
  | [], c => some c
  | b :: bs, c => (b.exec c).bind (run bs)

/-- Changes no memory and none of the registers a function must keep. -/
def Basic.scratch : Basic → Bool
  | .mov _ _ dst | .load _ dst | .lea _ _ dst | .movzbl _ dst | .alu _ _ _ dst | .shift _ _ _ dst
  | .sete dst => dst ∉ Reg.rsp :: calleeSaved
  | .store _ _ | .push _ | .pop _ => false

/-- The instructions are in memory from this address on. -/
def Loaded (code : Code) : Quad → List Instr → Prop
  | _, [] => True
  | a, i :: is => ∃ next, code a = some (i, next) ∧ Loaded code next is

def place (is : List Instr) : Code := fun a => is[a.toNat]?.map (·, a + 1)

theorem loaded_place (before is rest : List Instr) (hfits : (before ++ is ++ rest).length < 2 ^ 64) :
    Loaded (place (before ++ is ++ rest)) (BitVec.ofNat 64 before.length) is := by
  induction is generalizing before with
  | nil => trivial
  | cons i is ih =>
    have hlen : before.length < 2 ^ 64 := by
      simp only [List.length_append, List.length_cons] at hfits
      omega
    have happend : before ++ i :: is ++ rest = before ++ [i] ++ is ++ rest := by simp
    refine ⟨BitVec.ofNat 64 before.length + 1, ?_, ?_⟩
    · rw [place, BitVec.toNat_ofNat, Nat.mod_eq_of_lt hlen]
      simp
    · have hnext : BitVec.ofNat 64 before.length + 1 = BitVec.ofNat 64 (before ++ [i]).length := by
        rw [List.length_append, List.length_singleton, BitVec.ofNat_add]
        rfl
      rw [happend] at hfits ⊢
      rw [hnext]
      exact ih (before ++ [i]) hfits

section Execution

variable {code : Code} {a f : Quad} {rest : List Instr} {c d : Core}

theorem loaded_run {bs : List Basic} (h : Loaded code a (bs.map .basic ++ rest)) (hrun : run bs c = some d) :
    ∃ b, Loaded code b rest ∧ Steps code ⟨c, a⟩ ⟨d, b⟩ := by
  induction bs generalizing a c with
  | nil =>
    cases hrun
    exact ⟨a, h, .refl⟩
  | cons i bs ih =>
    obtain ⟨next, hcode, hrest⟩ := h
    obtain ⟨c', hexec, hrun⟩ := Option.bind_eq_some_iff.1 hrun
    obtain ⟨b, hb, hsteps⟩ := ih hrest hrun
    refine ⟨b, hb, .head ?_ hsteps⟩
    rw [step, hcode, Option.bind_some]
    exact congrArg (Option.map _) hexec

/-! ### Functions -/

/-- A call that began in `c` has come back to the address on the stack. -/
structure Returned (c : Core) (t : State) : Prop where
  rip : t.rip = load c.mem (c.regs .rsp)
  rsp : t.core.regs .rsp = c.regs .rsp + 8
  saved : ∀ r ∈ calleeSaved, t.core.regs r = c.regs r

/-- The function at `f`, called in a state with `P`, returns in one with `Q`. -/
def Implements (code : Code) (f : Quad) (P : Core → Prop) (Q : Core → Core → Prop) : Prop :=
  ∀ c, P c → ∃ t, Steps code ⟨c, f⟩ t ∧ Returned c t ∧ Q c t.core

/-- The function at `f` returns with memory as it was and in `rax` what `R` says of its arguments. -/
def Computes (code : Code) (f : Quad) (R : Core → Quad → Prop) : Prop :=
  Implements code f (fun _ => True) fun c d => d.mem = c.mem ∧ R c (d.regs .rax)

/-- What a function must find again when it returns. -/
structure Framed (c d : Core) : Prop where
  rsp : d.regs .rsp = c.regs .rsp
  back : load d.mem (c.regs .rsp) = load c.mem (c.regs .rsp)
  saved : ∀ r ∈ calleeSaved, d.regs r = c.regs r

theorem exec_scratch {b : Basic} (hb : b.scratch = true) (h : b.exec c = some d) :
    d.mem = c.mem ∧ ∀ r ∈ Reg.rsp :: calleeSaved, d.regs r = c.regs r := by
  cases b
  case store | push | pop => cases hb
  case sete dst =>
    obtain ⟨z, -, rfl⟩ := Option.map_eq_some_iff.1 h
    refine ⟨rfl, fun r hr => c.set_regs _ ?_⟩
    rintro rfl
    exact of_decide_eq_true hb hr
  all_goals
    cases h
    refine ⟨rfl, fun r hr => c.set_regs _ ?_⟩
    rintro rfl
    exact of_decide_eq_true hb hr

theorem run_scratch {bs : List Basic} (hbs : bs.all Basic.scratch = true) (h : run bs c = some d) :
    d.mem = c.mem ∧ Framed c d := by
  suffices hall : d.mem = c.mem ∧ ∀ r ∈ Reg.rsp :: calleeSaved, d.regs r = c.regs r by
    obtain ⟨hmem, hregs⟩ := hall
    exact ⟨hmem, hregs _ (List.mem_cons_self ..), by rw [hmem],
      fun r hr => hregs r (List.mem_cons_of_mem _ hr)⟩
  induction bs generalizing c with
  | nil =>
    cases h
    exact ⟨rfl, fun _ _ => rfl⟩
  | cons b bs ih =>
    obtain ⟨c', hexec, hrun⟩ := Option.bind_eq_some_iff.1 h
    obtain ⟨hb, hbs⟩ := Bool.and_eq_true_iff.1 hbs
    obtain ⟨hmem, hregs⟩ := exec_scratch hb hexec
    obtain ⟨hmem', hregs'⟩ := ih hbs hrun
    exact ⟨hmem'.trans hmem, fun r hr => (hregs' r hr).trans (hregs r hr)⟩

theorem step_ret (h : Loaded code a (.ret :: rest)) : step code ⟨c, a⟩ = some ⟨c.pop.2, c.pop.1⟩ := by
  obtain ⟨next, hcode, -⟩ := h
  rw [step, hcode]
  rfl

theorem returned_ret (h : Framed c d) : Returned c ⟨d.pop.2, d.pop.1⟩ := by
  refine ⟨?_, ?_, fun r hr => ?_⟩
  · rw [← h.back, ← h.rsp]
    rfl
  · rw [← h.rsp]
    exact d.pop_rsp
  · rw [← h.saved r hr]
    exact d.pop_regs (calleeSaved_ne hr)

theorem implements_leaf {bs : List Basic} {P : Core → Prop} {Q : Core → Core → Prop}
    (h : Loaded code f (bs.map .basic ++ [.ret]))
    (hbody : ∀ c, P c → ∃ d, run bs c = some d ∧ Framed c d ∧ Q c d.pop.2) : Implements code f P Q := by
  intro c hc
  obtain ⟨d, hrun, hframed, hq⟩ := hbody c hc
  obtain ⟨b, hb, hsteps⟩ := loaded_run h hrun
  exact ⟨_, hsteps.tail (step_ret hb), returned_ret hframed, hq⟩

theorem computes_scratch {bs : List Basic} {R : Core → Quad → Prop}
    (h : Loaded code f (bs.map .basic ++ [.ret])) (hbs : bs.all Basic.scratch = true)
    (hbody : ∀ c, ∃ d, run bs c = some d ∧ R c (d.regs .rax)) : Computes code f R := by
  apply implements_leaf h
  intro c _
  obtain ⟨d, hrun, hr⟩ := hbody c
  obtain ⟨hmem, hframed⟩ := run_scratch hbs hrun
  refine ⟨d, hrun, hframed, hmem, ?_⟩
  rw [d.pop_regs (by decide)]
  exact hr

theorem steps_call (c : Core) {P : Core → Prop} {Q : Core → Core → Prop} (hf : Implements code f P Q)
    (h : Loaded code a (.call f :: rest)) (hp : ∀ next, P (c.push next)) :
    ∃ b d, Loaded code b rest ∧ Steps code ⟨c, a⟩ ⟨d, b⟩ ∧ Q (c.push b) d ∧
      d.regs .rsp = c.regs .rsp ∧ ∀ r ∈ calleeSaved, d.regs r = c.regs r := by
  obtain ⟨next, hcode, hrest⟩ := h
  obtain ⟨⟨d, b⟩, hsteps, hret, hq⟩ := hf (c.push next) (hp next)
  have hcall : step code ⟨c, a⟩ = some ⟨c.push next, f⟩ := by
    rw [step, hcode]
    rfl
  have hb : b = next := by
    have hrip := hret.rip
    rw [Core.push_mem, Core.push_rsp, load_store] at hrip
    exact hrip
  subst hb
  refine ⟨b, d, hrest, .head hcall hsteps, hq, ?_, fun r hr => ?_⟩
  · have hrsp := hret.rsp
    rw [Core.push_rsp, sub_add_cancel] at hrsp
    exact hrsp
  · have hkept := hret.saved r hr
    rw [Core.push_regs _ _ (calleeSaved_ne hr)] at hkept
    exact hkept

end Execution

end Stage0.X86
