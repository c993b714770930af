import Mathlib
import Stage0.X86

set_option autoImplicit false

/-!
# The functions of `csapp` and what they were compiled to

The C functions compute in `long`, and in `int` where they are given a `short`; what
overflows has no result. The listings are those of the `.s` files.
-/
namespace Stage0.Assembly
open X86

/-! ### C arithmetic on signed integers -/

def addInt {n : ℕ} (x y : BitVec n) : Option (BitVec n) := if x.saddOverflow y then none else some (x + y)

def subInt {n : ℕ} (x y : BitVec n) : Option (BitVec n) := if x.ssubOverflow y then none else some (x - y)

def mulInt {n : ℕ} (x y : BitVec n) : Option (BitVec n) := if x.smulOverflow y then none else some (x * y)

theorem addInt_some {x y : BitVec 32} {k : ℤ} (hk : x.toInt + y.toInt = k) (hlo : -2 ^ 31 ≤ k)
    (hhi : k < 2 ^ 31) : addInt x y = some (x + y) ∧ (x + y).toInt = k := by
  have hno : ¬x.saddOverflow y = true := by
    rw [BitVec.saddOverflow, hk]
    simp only [Bool.or_eq_true, decide_eq_true_eq]
    omega
  exact ⟨if_neg hno, (BitVec.toInt_add_of_not_saddOverflow hno).trans hk⟩

theorem subInt_some {x y : BitVec 32} (hlo : -2 ^ 31 ≤ x.toInt - y.toInt)
    (hhi : x.toInt - y.toInt < 2 ^ 31) : subInt x y = some (x - y) := by
  have hno : ¬x.ssubOverflow y = true := by
    rw [BitVec.ssubOverflow]
    simp only [Bool.or_eq_true, decide_eq_true_eq]
    omega
  exact if_neg hno

theorem mulInt_some {x y : BitVec 32} {k : ℤ} (hk : x.toInt * y.toInt = k) (hlo : -2 ^ 31 ≤ k)
    (hhi : k < 2 ^ 31) : mulInt x y = some (x * y) ∧ (x * y).toInt = k := by
  have hno : ¬x.smulOverflow y = true := by
    rw [BitVec.smulOverflow, hk]
    simp only [Bool.or_eq_true, decide_eq_true_eq]
    omega
  exact ⟨if_neg hno, (BitVec.toInt_mul_of_not_smulOverflow hno).trans hk⟩

/-- The promotion of a `short` to `int`. -/
def int (x : BitVec 16) : BitVec 32 := x.signExtend 32

/-- The conversion of an `int` to `short` drops the upper bits. -/
def short (x : BitVec 32) : BitVec 16 := x.setWidth 16

theorem int_bounds (x : BitVec 16) : -2 ^ 15 ≤ (int x).toInt ∧ (int x).toInt < 2 ^ 15 := by
  rw [int, BitVec.toInt_signExtend_of_le (by decide)]
  exact ⟨x.le_toInt, x.toInt_lt⟩

theorem short_int (x : BitVec 16) : short (int x) = x := by
  apply BitVec.eq_of_getLsbD_eq
  intro i hi
  simp only [short, int, BitVec.getLsbD_setWidth, BitVec.getLsbD_signExtend, hi,
    show i < 32 by omega, decide_true, Bool.true_and, if_true]

theorem short_add (x y : BitVec 32) : short (x + y) = short x + short y :=
  BitVec.setWidth_add x y (by decide)

theorem short_mul (x y : BitVec 32) : short (x * y) = short x * short y :=
  BitVec.setWidth_mul x y (by decide)

theorem short_sub (x y : BitVec 32) : short (x - y) = short x - short y := by
  rw [BitVec.sub_eq_add_neg, short_add, BitVec.sub_eq_add_neg]
  congr 1
  exact BitVec.setWidth_neg_of_le (by decide)

theorem short_or (x y : BitVec 32) : short (x ||| y) = short x ||| short y := BitVec.setWidth_or

theorem short_sshiftRight (x : BitVec 16) (k : ℕ) : short ((int x).sshiftRight k) = x.sshiftRight k := by
  apply BitVec.eq_of_getLsbD_eq
  intro i hi
  simp only [short, int, BitVec.getLsbD_setWidth, BitVec.getLsbD_sshiftRight, BitVec.getLsbD_signExtend,
    BitVec.msb_signExtend, hi]
  by_cases h : k + i < 16
  · simp [h, show k + i < 32 by omega, show ¬32 ≤ i by omega, show ¬16 ≤ i by omega]
  · by_cases hw : k + i < 32
    · simp [h, hw, show ¬32 ≤ i by omega, show ¬16 ≤ i by omega]
    · simp [h, hw, show ¬32 ≤ i by omega, show ¬16 ≤ i by omega]

theorem shiftRight_eq_zero_iff {n k : ℕ} (x : BitVec n) (h : k < n) : x.sshiftRight k = 0 ↔ x >>> k = 0 := by
  cases hmsb : x.msb with
  | false => rw [BitVec.sshiftRight_eq_of_msb_false hmsb]
  | true =>
    have htop : x.getLsbD (n - 1) = true := x.msb_eq_getLsbD_last.symm.trans hmsb
    constructor
    · intro h0
      have hbit := congrArg (BitVec.getLsbD · (n - 1)) h0
      simp [BitVec.getLsbD_sshiftRight, hmsb] at hbit
      obtain ⟨hlt, hclear⟩ := hbit (by omega)
      rw [show k + (n - 1) = n - 1 by omega, htop] at hclear
      cases hclear
    · intro h0
      have hbit := congrArg (BitVec.getLsbD · (n - 1 - k)) h0
      simp [show k + (n - 1 - k) = n - 1 by omega, htop] at hbit

/-! ### `arith.c` -/

def arith (x y z : BitVec 64) : Option (BitVec 64) := do
  let t1 := x ^^^ y
  let t2 ← mulInt z 48
  let t3 := t1 &&& 0x0f0f0f0f#64
  let t4 ← subInt t2 t3
  return t4

def arithBody : List Basic :=
  [.alu .xor .quad (.reg .rsi) .rdi,
   .lea .quad ⟨.rdx, some (.rdx, 2)⟩ .rax,
   .shift .sal .quad (.imm 4) .rax,
   .alu .and .long (.imm 252645135) .rdi,
   .alu .sub .quad (.reg .rdi) .rax]

def arithCode : List Instr := arithBody.map .basic ++ [.ret]

theorem mask_long (v : BitVec 64) :
    (v.setWidth 32 &&& 252645135#32).setWidth 64 = v &&& 0x0f0f0f0f#64 := by
  apply BitVec.eq_of_getLsbD_eq
  intro i hi
  rw [BitVec.getLsbD_setWidth, BitVec.getLsbD_and, BitVec.getLsbD_and, BitVec.getLsbD_setWidth,
    BitVec.getLsbD_ofNat, BitVec.getLsbD_ofNat]
  by_cases h : i < 32
  · simp [h, hi]
  · have hmask : Nat.testBit 252645135 i = false := by
      apply Nat.testBit_lt_two_pow
      calc 252645135 < 2 ^ 32 := by decide
        _ ≤ 2 ^ i := Nat.pow_le_pow_right (by decide) (by omega)
    simp [h, hmask]

theorem arith_compiled {code : Code} {f : Quad} (h : Loaded code f arithCode) :
    Computes code f fun c v => ∀ r, arith (c.regs .rdi) (c.regs .rsi) (c.regs .rdx) = some r → v = r := by
  apply computes_scratch h (by decide)
  intro c
  refine ⟨_, rfl, fun r hr => ?_⟩
  change (c.regs .rdx + c.regs .rdx * 2) <<< 4 -
    ((c.regs .rdi ^^^ c.regs .rsi).setWidth 32 &&& 252645135#32).setWidth 64 = r
  obtain ⟨t2, ht2, hr⟩ := Option.bind_eq_some_iff.1 hr
  simp only [mulInt, subInt, Option.ite_none_left_eq_some, Option.some.injEq] at ht2 hr
  rw [mask_long, ← hr.2, ← ht2.2, BitVec.shiftLeft_eq_mul_twoPow, show BitVec.twoPow 64 4 = 16 by decide]
  congr 1
  ring

theorem arith_compiled_placed : Computes (place arithCode) 0 fun c v =>
    ∀ r, arith (c.regs .rdi) (c.regs .rsi) (c.regs .rdx) = some r → v = r :=
  arith_compiled (loaded_place [] arithCode [] (by decide))

/-! ### `leaq.c` -/

def scale (x y z : BitVec 16) : Option (BitVec 16) := do
  let xy ← mulInt (int x) (int y)
  let tenY ← mulInt 10 (int y)
  let sum ← addInt xy tenY
  let t ← addInt sum (int z)
  return short t

def scaleBody : List Basic :=
  [.alu .add .long (.imm 10) .rdi,
   .alu .imul .long (.reg .rsi) .rdi,
   .lea .long ⟨.rdx, some (.rdi, 1)⟩ .rax]

def scaleCode : List Instr := scaleBody.map .basic ++ [.ret]

theorem scale_value (x y z : BitVec 16) : scale x y z = some (x * y + 10 * y + z) := by
  obtain ⟨hxl, hxh⟩ := int_bounds x
  obtain ⟨hyl, hyh⟩ := int_bounds y
  obtain ⟨hzl, hzh⟩ := int_bounds z
  have hlo : -2 ^ 30 ≤ (int x).toInt * (int y).toInt := by nlinarith
  have hhi : (int x).toInt * (int y).toInt ≤ 2 ^ 30 := by nlinarith
  obtain ⟨h₁, hv₁⟩ := mulInt_some (x := int x) (y := int y) rfl (by omega) (by omega)
  obtain ⟨h₂, hv₂⟩ := mulInt_some (x := 10) (y := int y) (k := 10 * (int y).toInt) rfl (by omega) (by omega)
  obtain ⟨h₃, hv₃⟩ := addInt_some (x := int x * int y) (y := 10 * int y) rfl (by omega) (by omega)
  obtain ⟨h₄, -⟩ := addInt_some (x := int x * int y + 10 * int y) (y := int z) rfl (by omega) (by omega)
  calc scale x y z = some (short (int x * int y + 10 * int y + int z)) := by
        simp only [scale, h₁, h₂, h₃, h₄, Option.bind_eq_bind, Option.bind_some, Option.pure_def]
    _ = some (x * y + 10 * y + z) := by
        simp only [short_add, short_mul, short_int]
        rfl

/-- The upper bits of the registers in which the arguments come do not matter. -/
theorem scale_compiled {code : Code} {f : Quad} (h : Loaded code f scaleCode) :
    Computes code f fun c v =>
      scale (c.get .word .rdi) (c.get .word .rsi) (c.get .word .rdx) = some (v.setWidth 16) := by
  apply computes_scratch h (by decide)
  intro c
  refine ⟨_, rfl, ?_⟩
  change scale ((c.regs .rdi).setWidth 16) ((c.regs .rsi).setWidth 16) ((c.regs .rdx).setWidth 16) =
    some ((((c.regs .rdx + (((((c.regs .rdi).setWidth 32 + 10).setWidth 64).setWidth 32 *
      (c.regs .rsi).setWidth 32).setWidth 64) * 1).setWidth 32).setWidth 64).setWidth 16)
  rw [scale_value]
  have hten : (10 : BitVec 32).setWidth 16 = 10 := rfl
  simp (disch := decide) only [mul_one, BitVec.setWidth_setWidth_of_le, BitVec.setWidth_add,
    BitVec.setWidth_mul, hten]
  congr 1
  ring

theorem scale_compiled_placed : Computes (place scaleCode) 0 fun c v =>
    scale (c.get .word .rdi) (c.get .word .rsi) (c.get .word .rdx) = some (v.setWidth 16) :=
  scale_compiled (loaded_place [] scaleCode [] (by decide))

/-! ### `arith3.c` -/

def arith3 (_x y z : BitVec 16) : Option (BitVec 16) := do
  let p1 := short (int z ||| int y)
  let p2 := short ((int p1).sshiftRight 9)
  let p3 : BitVec 16 := if p2 = 0 then 1 else 0
  let p4 ← subInt (int p3) (int y)
  return short p4

def arith3Body : List Basic :=
  [.alu .or .long (.reg .rsi) .rdx,
   .shift .shr .word (.imm 9) .rdx,
   .sete .rax,
   .movzbl .rax .rax,
   .alu .sub .long (.reg .rsi) .rax]

def arith3Code : List Instr := arith3Body.map .basic ++ [.ret]

theorem arith3_value (x y z : BitVec 16) :
    arith3 x y z = some ((if (z ||| y) >>> 9 = 0 then 1 else 0) - y) := by
  obtain ⟨hyl, hyh⟩ := int_bounds y
  simp only [arith3, short_sshiftRight, short_or, short_int,
    shiftRight_eq_zero_iff (z ||| y) (show 9 < 16 by decide)]
  generalize hp : (if (z ||| y) >>> 9 = 0 then (1 : BitVec 16) else 0) = p
  have hone : 0 ≤ (int p).toInt ∧ (int p).toInt ≤ 1 := by
    rw [← hp]
    split <;> decide
  rw [subInt_some (by omega) (by omega)]
  simp only [Option.bind_eq_bind, Option.bind_some, Option.pure_def, short_sub, short_int]

theorem arith3_compiled {code : Code} {f : Quad} (h : Loaded code f arith3Code) :
    Computes code f fun c v =>
      arith3 (c.get .word .rdi) (c.get .word .rsi) (c.get .word .rdx) = some (v.setWidth 16) := by
  apply computes_scratch h (by decide)
  intro c
  refine ⟨_, rfl, ?_⟩
  let w : BitVec 16 := (((c.regs .rdx).setWidth 32 ||| (c.regs .rsi).setWidth 32).setWidth 64).setWidth 16
  let b : BitVec 8 := if decide (w >>> 9 = 0) then 1 else 0
  change arith3 ((c.regs .rdi).setWidth 16) ((c.regs .rsi).setWidth 16) ((c.regs .rdx).setWidth 16) =
    some ((((((((c.regs .rax).extractLsb' 8 56 ++ b).setWidth 8).setWidth 32).setWidth 64).setWidth 32 -
      (c.regs .rsi).setWidth 32).setWidth 64).setWidth 16)
  have hlow : ((c.regs .rax).extractLsb' 8 56 ++ b).setWidth 8 = b := BitVec.setWidth_append_eq_right
  have hw : w = (c.regs .rdx).setWidth 16 ||| (c.regs .rsi).setWidth 16 := by
    simp [w]
  rw [arith3_value, hlow, ← hw, BitVec.setWidth_setWidth_of_le _ (by decide),
    BitVec.setWidth_setWidth_of_le _ (by decide)]
  change _ = some (short (_ - _))
  rw [short_sub]
  simp only [b, decide_eq_true_eq]
  split
  · simp [short]
  · simp [short]

theorem arith3_compiled_placed : Computes (place arith3Code) 0 fun c v =>
    arith3 (c.get .word .rdi) (c.get .word .rsi) (c.get .word .rdx) = some (v.setWidth 16) :=
  arith3_compiled (loaded_place [] arith3Code [] (by decide))

/-! ### `shift.c` -/

/-- A left shift of a negative number drops bits here; a count outside the width has no meaning. -/
def shiftLeft4Rightn (x n : BitVec 64) : Option (BitVec 64) :=
  let x := x <<< 4
  if 0 ≤ n.toInt ∧ n.toInt < 64 then some (x.sshiftRight n.toNat) else none

def shiftLeft4RightnBody : List Basic :=
  [.mov .quad (.reg .rdi) .rax,
   .shift .sal .quad (.imm 4) .rax,
   .mov .long (.reg .rsi) .rcx,
   .shift .sar .quad .cl .rax]

def shiftLeft4RightnCode : List Instr := shiftLeft4RightnBody.map .basic ++ [.ret]

theorem shiftLeft4Rightn_compiled {code : Code} {f : Quad} (h : Loaded code f shiftLeft4RightnCode) :
    Computes code f fun c v => ∀ r, shiftLeft4Rightn (c.regs .rdi) (c.regs .rsi) = some r → v = r := by
  apply computes_scratch h (by decide)
  intro c
  refine ⟨_, rfl, fun r hr => ?_⟩
  change ((c.regs .rdi) <<< 4).sshiftRight
    (((((c.regs .rsi).setWidth 32).setWidth 64).setWidth 8).toNat % 64) = r
  simp only [shiftLeft4Rightn, Option.ite_none_right_eq_some, Option.some.injEq] at hr
  obtain ⟨⟨hlo, hhi⟩, hr⟩ := hr
  have hn : (c.regs .rsi).toNat < 64 := by
    have hmsb : (c.regs .rsi).toInt.toNat = (c.regs .rsi).toNat := BitVec.toNat_toInt_of_sle (by simpa [BitVec.sle] using hlo)
    omega
  rw [← hr]
  congr 1
  simp
  omega

theorem shiftLeft4Rightn_compiled_placed : Computes (place shiftLeft4RightnCode) 0 fun c v =>
    ∀ r, shiftLeft4Rightn (c.regs .rdi) (c.regs .rsi) = some r → v = r :=
  shiftLeft4Rightn_compiled (loaded_place [] shiftLeft4RightnCode [] (by decide))

/-! ### `exchange.c` -/

def exchange (m : Memory) (xp y : Quad) : Quad × Memory :=
  let x := load m xp
  (x, store m xp y)

def exchangeBody : List Basic := [.load ⟨.rdi, none⟩ .rax, .store .rsi ⟨.rdi, none⟩]

def exchangeCode : List Instr := exchangeBody.map .basic ++ [.ret]

/-- A pointer to the return address would be written over it. -/
theorem exchange_compiled {code : Code} {f : Quad} (h : Loaded code f exchangeCode) :
    Implements code f (fun c => Apart (c.regs .rsp) (c.regs .rdi)) fun c d =>
      (d.regs .rax, d.mem) = exchange c.mem (c.regs .rdi) (c.regs .rsi) := by
  apply implements_leaf h
  intro c hc
  refine ⟨_, rfl, ⟨rfl, ?_, fun r hr => ?_⟩, ?_⟩
  · change load (store c.mem (c.regs .rdi + 0) (c.regs .rsi)) (c.regs .rsp) = _
    rw [add_zero, load_apart _ hc]
  · refine c.set_regs _ ?_
    rintro rfl
    exact absurd hr (by decide)
  · change ((load c.mem (c.regs .rdi + 0)).setWidth 64, store c.mem (c.regs .rdi + 0) (c.regs .rsi)) = _
    rw [add_zero, BitVec.setWidth_eq]
    rfl

theorem exchange_compiled_placed : Implements (place exchangeCode) 0
    (fun c => Apart (c.regs .rsp) (c.regs .rdi)) fun c d =>
      (d.regs .rax, d.mem) = exchange c.mem (c.regs .rdi) (c.regs .rsi) :=
  exchange_compiled (loaded_place [] exchangeCode [] (by decide))

/-! ### `mstore.c` and `main.c` -/

def mult2 (a b : BitVec 64) : Option (BitVec 64) := do
  let s ← mulInt a b
  return s

def mulstore (m : Memory) (x y dest : BitVec 64) : Option Memory := do
  let t ← mult2 x y
  return store m dest t

def mulstoreCode (mult2 : Quad) : List Instr :=
  [.push .rbx, .mov .quad (.reg .rdx) .rbx].map .basic ++ .call mult2 ::
    ([.store .rax ⟨.rbx, none⟩, .pop .rbx].map .basic ++ [.ret])

/-- What `mulstore` relies on: the function at `g` multiplies, and uses `n` bytes of stack. -/
def Multiplies (code : Code) (g : Quad) (n : ℕ) : Prop :=
  Implements code g (fun c => mult2 (c.regs .rdi) (c.regs .rsi) ≠ none) fun c d =>
    mult2 (c.regs .rdi) (c.regs .rsi) = some (d.regs .rax) ∧
      ∀ x, ¬Below (c.regs .rsp) n x → d.mem x = c.mem x

/-- The frame of `mulstore`: the return address and the saved `rbx` outlive the call and the store,
and outside the stack below only the destination changes. -/
theorem mulstore_frame {m after : Memory} {sp dest saved back t : Quad} {n : ℕ} (hn : n + 24 ≤ 2 ^ 64)
    (hkept : ∀ x, ¬Below (sp - 8 - 8) n x → after x = store (store m (sp - 8) saved) (sp - 8 - 8) back x)
    (hret : Apart sp dest) (hsaved : Apart (sp - 8) dest) :
    load (store after dest t) sp = load m sp ∧ load (store after dest t) (sp - 8) = saved ∧
      ∀ x, ¬Below sp (n + 16) x → store after dest t x = store m dest t x := by
  have habove : ∀ x, (x - sp).toNat < 8 → after x = m x := by
    intro x hx
    rw [hkept x (by unfold Below; bv_omega), store_outside _ (by bv_omega), store_outside _ (by bv_omega)]
  have hslot : ∀ x, (x - (sp - 8)).toNat < 8 → after x = store m (sp - 8) saved x := by
    intro x hx
    rw [hkept x (by unfold Below; bv_omega), store_outside _ (by bv_omega)]
  refine ⟨?_, ?_, fun x hx => ?_⟩
  · rw [load_apart _ hret, load_congr habove]
  · rw [load_apart _ hsaved, load_congr hslot, load_store]
  · unfold store
    split
    · rfl
    · unfold Below at hx
      rw [hkept x (by unfold Below; bv_omega), store_outside _ (by bv_omega), store_outside _ (by bv_omega)]

theorem mulstore_compiled {code : Code} {f g : Quad} {n : ℕ} (hn : n + 24 ≤ 2 ^ 64)
    (h : Loaded code f (mulstoreCode g)) (hg : Multiplies code g n) :
    Implements code f
      (fun c => mult2 (c.regs .rdi) (c.regs .rsi) ≠ none ∧ Apart (c.regs .rsp) (c.regs .rdx) ∧
        Apart (c.regs .rsp - 8) (c.regs .rdx))
      fun c d => ∃ m, mulstore c.mem (c.regs .rdi) (c.regs .rsi) (c.regs .rdx) = some m ∧
        ∀ x, ¬Below (c.regs .rsp) (n + 16) x → d.mem x = m x := by
  rintro c ⟨hmult, hret, hsaved⟩
  let entered := (c.push (c.regs .rbx)).set .quad .rbx (c.regs .rdx)
  have hpush : run [.push .rbx, .mov .quad (.reg .rdx) .rbx] c = some entered := by
    simp only [run, Basic.exec, Option.bind_some, Source.value, Core.get, entered]
    rw [Core.push_regs _ _ (by decide)]
    exact congrArg (fun v => some ((c.push (c.regs .rbx)).set .quad .rbx v)) (BitVec.setWidth_eq _)
  obtain ⟨a, ha, hsteps₁⟩ := loaded_run h hpush
  obtain ⟨b, d, hb, hsteps₂, ⟨hprod, hkept⟩, hrsp, hregs⟩ := steps_call entered hg ha (fun _ => hmult)
  have hrbx : d.regs .rbx = c.regs .rdx := hregs .rbx (by decide)
  have hsp : d.regs .rsp = c.regs .rsp - 8 := hrsp
  obtain ⟨hback, hslot, hmem⟩ := mulstore_frame (t := d.regs .rax) hn hkept hret hsaved
  let left : Core := ⟨d.regs, store d.mem (c.regs .rdx) (d.regs .rax), d.zf⟩
  have hpop : run [.store .rax ⟨.rbx, none⟩, .pop .rbx] d =
      some (left.pop.2.set .quad .rbx (c.regs .rbx)) := by
    have haddress : Address.value d ⟨.rbx, none⟩ = c.regs .rdx := by
      simp only [Address.value, add_zero, hrbx]
    have hvalue : left.pop.1 = c.regs .rbx := by
      rw [← hslot, ← hsp]
      rfl
    simp only [run, Basic.exec, Option.bind_some, haddress]
    exact congrArg (fun v => some (left.pop.2.set .quad .rbx v)) hvalue
  obtain ⟨e, he, hsteps₃⟩ := loaded_run hb hpop
  have hframed : Framed c (left.pop.2.set .quad .rbx (c.regs .rbx)) := by
    refine ⟨?_, hback, fun r hr => ?_⟩
    · rw [Core.set_regs _ _ (by decide), Core.pop_rsp]
      change d.regs .rsp + 8 = _
      rw [hsp, sub_add_cancel]
    · by_cases hr' : r = .rbx
      · rw [hr', Core.set_self]
        rfl
      · rw [Core.set_regs _ _ hr', Core.pop_regs _ (calleeSaved_ne hr)]
        change d.regs r = _
        rw [hregs r hr, Core.set_regs _ _ hr', Core.push_regs _ _ (calleeSaved_ne hr)]
  refine ⟨_, (hsteps₁.trans hsteps₂).trans (hsteps₃.tail (step_ret he)), returned_ret hframed, ?_⟩
  have hprod : mult2 (c.regs .rdi) (c.regs .rsi) = some (d.regs .rax) := hprod
  refine ⟨store c.mem (c.regs .rdx) (d.regs .rax), ?_, hmem⟩
  rw [mulstore, hprod]
  rfl

def mult2Body : List Basic := [.mov .quad (.reg .rdi) .rax, .alu .imul .quad (.reg .rsi) .rax]

theorem mult2_multiplies {code : Code} {g : Quad} (h : Loaded code g (mult2Body.map .basic ++ [.ret])) :
    Multiplies code g 0 := by
  apply implements_leaf h
  intro c hc
  have hrun := @run_scratch c _ mult2Body (by decide) rfl
  refine ⟨_, rfl, hrun.2, ?_, fun x _ => rfl⟩
  obtain ⟨r, hr⟩ := Option.ne_none_iff_exists'.1 hc
  change mulInt _ _ = some r at hr
  change mulInt _ _ = some ((c.regs .rdi).setWidth 64 * (c.regs .rsi).setWidth 64)
  rw [BitVec.setWidth_eq, BitVec.setWidth_eq]
  rw [mulInt, Option.ite_none_left_eq_some] at hr
  exact if_neg hr.1

theorem mulstore_compiled_placed :
    let code := place (mulstoreCode 6 ++ (mult2Body.map .basic ++ [.ret]))
    Implements code 0
      (fun c => mult2 (c.regs .rdi) (c.regs .rsi) ≠ none ∧ Apart (c.regs .rsp) (c.regs .rdx) ∧
        Apart (c.regs .rsp - 8) (c.regs .rdx))
      fun c d => ∃ m, mulstore c.mem (c.regs .rdi) (c.regs .rsi) (c.regs .rdx) = some m ∧
        ∀ x, ¬Below (c.regs .rsp) (0 + 16) x → d.mem x = m x :=
  mulstore_compiled (by decide) (loaded_place [] (mulstoreCode 6) _ (by decide))
    (mult2_multiplies (loaded_place (mulstoreCode 6) (mult2Body.map .basic ++ [.ret]) [] (by decide)))

end Stage0.Assembly
