import Mathlib.Logic.Function.Basic

/-!
# Register save areas

Code that switches between two flows of control stores registers in one area and loads registers
from another one. It is straight-line code, so it can be executed on symbols: a `Track` says what
each register holds and what has been saved where, in terms of the machine before the code.

Results:
1. `Tracks.exec`: the code does what it does on symbols.
2. `Switch.round_trip`: code that passes `Switch.check` for a list of registers loads what it has
   saved of them.
-/

namespace SaveArea

/-- The bytes of a register, the lowest one first. -/
abbrev Bytes := Nat → UInt8

structure Machine (Reg : Type) where
  reg : Reg → Bytes
  mem : Nat → UInt8

/-- Offsets and widths are in bytes. -/
inductive Instr (Reg : Type)
  | load (dst base : Reg) (off width : Nat)
  | store (base : Reg) (off width : Nat) (src : Reg)
  | mov (dst src : Reg)
  /-- The address at which the code is resumed. -/
  | label (dst : Reg)

/-- What a register holds, in terms of the machine before the code. -/
inductive Sym (Reg : Type)
  | reg (r : Reg)
  /-- A place in the area that the code loads from. -/
  | place (off width : Nat)
  | label
deriving DecidableEq

/-- A place in the area that the code stores to, and what it has been given. -/
structure Saved (Reg : Type) where
  off : Nat
  width : Nat
  sym : Sym Reg

structure Track (Reg : Type) where
  reg : Reg → Sym Reg
  saved : List (Saved Reg)

/-- When the saved flow goes on, the first `width` bytes of `reg` are to be those `src` had, or
those of the label. -/
structure Kept (Reg : Type) where
  reg : Reg
  width : Nat
  src : Option Reg

/-- Switch code, with the registers that hold the addresses of the two areas. -/
structure Switch (Reg : Type) where
  code : List (Instr Reg)
  save : Reg
  restore : Reg
  size : Nat

variable {Reg : Type} [DecidableEq Reg] (addr : Bytes → Nat) (resume : Bytes)

/-- A loaded value is extended with zeros. -/
def read (mem : Nat → UInt8) (a width : Nat) : Bytes :=
  fun k => if k < width then mem (a + k) else 0

def Machine.step (m : Machine Reg) : Instr Reg → Machine Reg
  | .load dst base off width =>
    { m with reg := Function.update m.reg dst (read m.mem (addr (m.reg base) + off) width) }
  | .store base off width src =>
    let a := addr (m.reg base) + off
    { m with mem := fun b => if a ≤ b ∧ b < a + width then m.reg src (b - a) else m.mem b }
  | .mov dst src => { m with reg := Function.update m.reg dst (m.reg src) }
  | .label dst => { m with reg := Function.update m.reg dst resume }

def Machine.exec (m : Machine Reg) (code : List (Instr Reg)) : Machine Reg :=
  code.foldl (Machine.step addr resume) m

namespace Switch

/-- A step on symbols. The addresses must be the given ones, and no place is written twice. -/
def track (c : Switch Reg) (t : Track Reg) : Instr Reg → Option (Track Reg)
  | .load dst base off width =>
    if t.reg base = .reg c.restore ∧ off + width ≤ c.size then
      some { t with reg := Function.update t.reg dst (.place off width) }
    else none
  | .store base off width src =>
    if (t.reg base = .reg c.save ∧ off + width ≤ c.size) ∧
        ∀ p ∈ t.saved, p.off + p.width ≤ off ∨ off + width ≤ p.off then
      some { t with saved := ⟨off, width, t.reg src⟩ :: t.saved }
    else none
  | .mov dst src => some { t with reg := Function.update t.reg dst (t.reg src) }
  | .label dst => some { t with reg := Function.update t.reg dst .label }

/-- The place from which a register is loaded has been given what is to be kept. -/
def Keeps (c : Switch Reg) (t : Track Reg) (e : Kept Reg) (p : Saved Reg) : Prop :=
  (p.off + p.width ≤ c.size ∧ p.width = e.width) ∧
    p.sym = e.src.elim .label .reg ∧ t.reg e.reg = .place p.off p.width

instance (c : Switch Reg) (t : Track Reg) (e : Kept Reg) (p : Saved Reg) :
    Decidable (c.Keeps t e p) :=
  inferInstanceAs (Decidable (_ ∧ _))

def check (c : Switch Reg) (kept : List (Kept Reg)) : Bool :=
  (c.code.foldlM c.track ⟨.reg, []⟩).any fun t => ∀ e ∈ kept, ∃ p ∈ t.saved, c.Keeps t e p

/-- The code is called to save at `a` and to load from `b`. -/
structure Call (c : Switch Reg) (m : Machine Reg) (a b : Nat) : Prop where
  save : addr (m.reg c.save) = a
  restore : addr (m.reg c.restore) = b
  apart : ∀ j < c.size, ∀ k < c.size, b + j ≠ a + k

end Switch

/-! ## The code on symbols -/

def Sym.value (m : Machine Reg) (b : Nat) : Sym Reg → Bytes
  | .reg r => m.reg r
  | .place off width => read m.mem (b + off) width
  | .label => resume

/-- The machine `m'` is what the symbols say of the machine `m`. -/
structure Tracks (c : Switch Reg) (m m' : Machine Reg) (a b : Nat) (t : Track Reg) : Prop where
  reg : ∀ r, m'.reg r = (t.reg r).value resume m b
  saved : ∀ p ∈ t.saved, ∀ k < p.width, m'.mem (a + p.off + k) = p.sym.value resume m b k
  frame : ∀ i, (∀ k < c.size, i ≠ a + k) → m'.mem i = m.mem i

variable {addr resume} {c : Switch Reg} {kept : List (Kept Reg)} {m m' : Machine Reg}
  {t t' : Track Reg} {a b : Nat}

theorem Tracks.setReg (h : Tracks resume c m m' a b t) (dst : Reg) {v : Bytes} {s : Sym Reg}
    (hv : v = s.value resume m b) :
    Tracks resume c m { m' with reg := Function.update m'.reg dst v } a b
      { t with reg := Function.update t.reg dst s } := by
  refine ⟨fun r => ?_, h.saved, h.frame⟩
  show Function.update m'.reg dst v r = (Function.update t.reg dst s r).value resume m b
  rcases eq_or_ne r dst with rfl | hne
  · rw [Function.update_self, Function.update_self, hv]
  · rw [Function.update_of_ne hne, Function.update_of_ne hne, h.reg]

theorem Tracks.step (hc : c.Call addr m a b) {i : Instr Reg} (h : Tracks resume c m m' a b t)
    (ht : c.track t i = some t') : Tracks resume c m (m'.step addr resume i) a b t' := by
  cases i with
  | load dst base off width =>
    obtain ⟨⟨hbase, hsize⟩, rfl⟩ := Option.ite_none_right_eq_some.mp ht |>.imp_right Option.some.inj
    have hb : addr (m'.reg base) = b := by
      rw [h.reg base, hbase]
      exact hc.restore
    refine h.setReg dst (funext fun k => ?_)
    rw [hb]
    show (if _ then _ else _) = if _ then _ else _
    split
    · next hk =>
      -- No store has touched the area that is loaded from.
      refine h.frame _ fun j hj => ?_
      rw [Nat.add_assoc]
      exact hc.apart _ (by omega) j hj
    · rfl
  | store base off width src =>
    obtain ⟨⟨⟨hbase, hsize⟩, hfree⟩, rfl⟩ :=
      Option.ite_none_right_eq_some.mp ht |>.imp_right Option.some.inj
    have ha : addr (m'.reg base) = a := by
      rw [h.reg base, hbase]
      exact hc.save
    refine ⟨h.reg, fun p hp k hk => ?_, fun i hi => ?_⟩
    · show (if _ then _ else _) = _
      rw [ha]
      rcases List.mem_cons.mp hp with rfl | hp
      · rw [if_pos (by dsimp only at hk ⊢; omega), h.reg src, Nat.add_sub_cancel_left]
      · have := hfree p hp
        rw [if_neg (by omega)]
        exact h.saved p hp k hk
    · show (if _ then _ else _) = _
      rw [ha, if_neg fun hin => hi (i - a) (by omega) (by omega)]
      exact h.frame i hi
  | mov dst src =>
    cases ht
    exact h.setReg dst (h.reg src)
  | label dst =>
    cases ht
    exact h.setReg dst rfl

theorem Tracks.exec (hc : c.Call addr m a b) {code : List (Instr Reg)}
    (h : Tracks resume c m m' a b t) (ht : code.foldlM c.track t = some t') :
    Tracks resume c m (m'.exec addr resume code) a b t' := by
  induction code generalizing m' t with
  | nil =>
    cases ht
    exact h
  | cons i code ih =>
    rw [List.foldlM_cons] at ht
    obtain ⟨t₁, ht₁, ht⟩ := Option.bind_eq_some_iff.mp ht
    exact ih (h.step hc ht₁) ht

/-! ## Code that keeps what has to be kept -/

theorem Switch.tracks (resume : Bytes) (hcheck : c.check kept) (hc : c.Call addr m a b) :
    ∃ t, c.code.foldlM c.track ⟨.reg, []⟩ = some t ∧
      (∀ e ∈ kept, ∃ p ∈ t.saved, c.Keeps t e p) ∧
      Tracks resume c m (m.exec addr resume c.code) a b t := by
  obtain ⟨t, ht, hkeeps⟩ := (Option.any_eq_true _ _).mp hcheck
  refine ⟨t, ht, of_decide_eq_true hkeeps, Tracks.exec hc ⟨fun _ => rfl, ?_, fun _ _ => rfl⟩ ht⟩
  intro p hp
  cases hp

/-- What the code has saved at `a` it loads when it is called to load from `a`. -/
theorem Switch.round_trip (hcheck : c.check kept) (hout : c.Call addr m a b) {m' : Machine Reg}
    {a' : Nat} (hin : c.Call addr m' a' a)
    (hmem : ∀ k < c.size, m'.mem (a + k) = (m.exec addr resume c.code).mem (a + k))
    {e : Kept Reg} (he : e ∈ kept) {k : Nat} (hk : k < e.width) :
    (m'.exec addr resume c.code).reg e.reg k = e.src.elim resume m.reg k := by
  obtain ⟨t, ht, hkeeps, hsaved⟩ := c.tracks resume hcheck hout
  obtain ⟨t', ht', -, hloaded⟩ := c.tracks resume hcheck hin
  cases ht.symm.trans ht'
  obtain ⟨p, hp, ⟨hsize, hwidth⟩, hsym, hreg⟩ := hkeeps e he
  have hplace : (m'.exec addr resume c.code).reg e.reg k = m'.mem (a + (p.off + k)) := by
    rw [hloaded.reg, hreg, ← Nat.add_assoc]
    exact if_pos (by omega)
  rw [hplace, hmem (p.off + k) (by omega), ← Nat.add_assoc, hsaved.saved p hp k (by omega), hsym]
  cases e.src with
  | none | some _ => rfl

end SaveArea
