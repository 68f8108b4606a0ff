import Mos6502.Proofs.Ensures
import Mos6502.Resolve

namespace Mos6502.Mode

/-- The reads by which a mode finds its target, for an instruction at `r.pc`. -/
inductive Lookup (r : Registers) : Mode → List Access → Option Addr → Prop
  | implicit : Lookup r .implicit [] none
  | accumulator : Lookup r .accumulator [] none
  | immediate : Lookup r .immediate [] (some (r.pc + 1))
  | zeroPage (b : Byte) : Lookup r .zeroPage [⟨.read, r.pc + 1, b⟩] (some (pageZero b))
  | zeroPageX (b : Byte) : Lookup r .zeroPageX [⟨.read, r.pc + 1, b⟩] (some (pageZero (b + r.x)))
  | zeroPageY (b : Byte) : Lookup r .zeroPageY [⟨.read, r.pc + 1, b⟩] (some (pageZero (b + r.y)))
  | relative (d : Byte) :
      Lookup r .relative [⟨.read, r.pc + 1, d⟩] (some (displace (r.pc + 2) d))
  | absolute (lo hi : Byte) :
      Lookup r .absolute [⟨.read, r.pc + 1, lo⟩, ⟨.read, r.pc + 2, hi⟩] (some (word lo hi))
  | absoluteX (lo hi : Byte) :
      Lookup r .absoluteX [⟨.read, r.pc + 1, lo⟩, ⟨.read, r.pc + 2, hi⟩]
        (some (word lo hi + r.x.toUInt16))
  | absoluteY (lo hi : Byte) :
      Lookup r .absoluteY [⟨.read, r.pc + 1, lo⟩, ⟨.read, r.pc + 2, hi⟩]
        (some (word lo hi + r.y.toUInt16))
  | indirect (lo hi : Byte) {p : Addr} (hp : p = UInt16.ofNat (lo.toNat + 256 * hi.toNat))
      (lo' hi' : Byte) :
      Lookup r .indirect
        [⟨.read, r.pc + 1, lo⟩, ⟨.read, r.pc + 2, hi⟩, ⟨.read, p, lo'⟩, ⟨.read, p + 1, hi'⟩]
        (some (word lo' hi'))
  | indirectX (b : Byte) {p : Addr} (hp : p = pageZero (b + r.x)) (lo hi : Byte) :
      Lookup r .indirectX [⟨.read, r.pc + 1, b⟩, ⟨.read, p, lo⟩, ⟨.read, p + 1, hi⟩]
        (some (word lo hi))
  | indirectY (b : Byte) {p : Addr} (hp : p = pageZero b) (lo hi : Byte) :
      Lookup r .indirectY [⟨.read, r.pc + 1, b⟩, ⟨.read, p, lo⟩, ⟨.read, p + 1, hi⟩]
        (some (word lo hi + r.y.toUInt16))

variable {r : Registers} {mode : Mode} {as : List Access} {target : Option Addr}

theorem Lookup.isSome_target (h : Lookup r mode as target) : target.isSome = mode.hasAddress := by
  cases h <;> rfl

theorem Lookup.onlyReads (h : Lookup r mode as target) : OnlyReads (as.map .access) := by
  cases h <;> simp

theorem Lookup.target_of_accumulator (h : Lookup r mode as target) (hm : mode = .accumulator) :
    target = none := by
  subst hm
  cases h
  rfl

theorem Lookup.nil_of_implicit (h : Lookup r mode as target) (hm : mode = .implicit) : as = [] := by
  subst hm
  cases h
  rfl

/-- Resolving leads through the reads of `Lookup`, or some read on the way is refused. -/
inductive Resolving {σ : Type} (mode : Mode) (r : Registers) (s : σ) : Post σ (Option Addr)
  | found {as : List Access} {target : Option Addr} (h : Lookup r mode as target) :
      Resolving mode r s (as.map .access) (.done s target)
  | refused {es : List Event} (hm : mode ≠ .implicit) (h : OnlyReads es) (addr : Addr) :
      Resolving mode r s es (.cut s (.refusedRead addr))

theorem resolve_ensures {σ : Type} (mode : Mode) (r : Registers) (s : σ) :
    (mode.resolve r).Ensures s (mode.Resolving r s) := by
  have next : r.pc + 1 + 1 = r.pc + 2 := by rw [UInt16.add_assoc]; rfl
  -- whichever read is refused, there are only reads before it
  have stop (hm : mode ≠ .implicit) (es : List Event) (h : OnlyReads es) (addr : Addr) :
      mode.Resolving r s es (.cut s (.refusedRead addr)) := .refused hm h addr
  cases mode <;>
    simp only [resolve, next, bind_pure_comp, Micro.ensures_pure, Micro.ensures_map,
      Micro.ensures_bind, Micro.ensures_read, Micro.ensures_readWord, Finish.then_done,
      Finish.then_cut, List.nil_append, List.cons_append]
  -- one case for each mode, along its reads
  case implicit => exact .found .implicit
  case accumulator => exact .found .accumulator
  case immediate => exact .found .immediate
  case zeroPage => exact ⟨stop (by simp) [] (by simp) _, fun b => .found (.zeroPage b)⟩
  case zeroPageX => exact ⟨stop (by simp) [] (by simp) _, fun b => .found (.zeroPageX b)⟩
  case zeroPageY => exact ⟨stop (by simp) [] (by simp) _, fun b => .found (.zeroPageY b)⟩
  case relative => exact ⟨stop (by simp) [] (by simp) _, fun d => .found (.relative d)⟩
  case absolute =>
    refine ⟨stop (by simp) [] (by simp) _, fun lo => ⟨stop (by simp) _ (by simp) _, fun hi => ?_⟩⟩
    exact .found (.absolute lo hi)
  case absoluteX =>
    refine ⟨stop (by simp) [] (by simp) _, fun lo => ⟨stop (by simp) _ (by simp) _, fun hi => ?_⟩⟩
    exact .found (.absoluteX lo hi)
  case absoluteY =>
    refine ⟨stop (by simp) [] (by simp) _, fun lo => ⟨stop (by simp) _ (by simp) _, fun hi => ?_⟩⟩
    exact .found (.absoluteY lo hi)
  case indirect =>
    refine ⟨stop (by simp) [] (by simp) _, fun lo => ⟨stop (by simp) _ (by simp) _, fun hi => ?_⟩⟩
    refine ⟨stop (by simp) _ (by simp) _, fun lo' => ⟨stop (by simp) _ (by simp) _, fun hi' => ?_⟩⟩
    exact .found (.indirect lo hi rfl lo' hi')
  case indirectX =>
    refine ⟨stop (by simp) [] (by simp) _, fun b => ⟨stop (by simp) _ (by simp) _, fun lo => ?_⟩⟩
    exact ⟨stop (by simp) _ (by simp) _, fun hi => .found (.indirectX b rfl lo hi)⟩
  case indirectY =>
    refine ⟨stop (by simp) [] (by simp) _, fun b => ⟨stop (by simp) _ (by simp) _, fun lo => ?_⟩⟩
    exact ⟨stop (by simp) _ (by simp) _, fun hi => .found (.indirectY b rfl lo hi)⟩

end Mos6502.Mode
