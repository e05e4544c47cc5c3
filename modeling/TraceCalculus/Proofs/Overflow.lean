import TraceCalculus.Expr.Tracking
import TraceCalculus.Proofs.Doubles
import TraceCalculus.Proofs.DoubleText
import TraceCalculus.Proofs.Literals
import TraceCalculus.Proofs.Simplified

/-! # Overflow

A numeral that is too large for a double stands for infinity, and from infinities something that is
not a number can be calculated. So a source text can be read as an expression that does not compare
equal to itself (`Expr.read_overflowing`).

Without an infinity this does not happen. A `Watched` double remembers whether there was an infinity
on the way to it; a source text is read over watched doubles just as over doubles, and every literal
that is not a number has an infinity behind it (`Expr.exists_read_watched`).
-/

set_option autoImplicit false

namespace TraceCalculus

open Float.Model (UnpackedFloat Format pack)

/-! ## Doubles that are not numbers -/

namespace UnpackedNumber

variable {u v : UnpackedFloat} (f : Format)

theorem isNaN_roundWithAccuracy (s : UnpackedFloat.Sign) (m : Nat) (e : Int)
    (a : UnpackedFloat.Accuracy) : (UnpackedFloat.roundWithAccuracy f s m e a).isNaN = false := by
  unfold UnpackedFloat.roundWithAccuracy
  dsimp only
  split <;> rfl

theorem isNaN_normalize (m e : Int) (s : UnpackedFloat.Sign) :
    (UnpackedFloat.normalize f m e s).isNaN = false := by
  unfold UnpackedFloat.normalize
  split
  · exact isNaN_roundWithAccuracy ..
  · rfl
  · exact isNaN_roundWithAccuracy ..

theorem isFinite_iff (u : UnpackedFloat) :
    u.isFinite = true ↔ u.isNaN = false ∧ u.isInf = false := by
  cases u <;> simp [UnpackedFloat.isFinite, UnpackedFloat.isNaN, UnpackedFloat.isInf]

theorem beq_self (u : UnpackedFloat) : u.beq u = !u.isNaN := by
  cases u with
  | notANumber | zero => rfl
  | infinity s => cases s <;> rfl
  | finite s m e => cases s <;> simp [UnpackedFloat.beq, UnpackedFloat.compare, UnpackedFloat.isNaN]

theorem isFinite_neg (h : u.isFinite = true) : u.neg.isFinite = true := by
  cases u with
  | notANumber | infinity => cases h
  | zero | finite => rfl

/-- A difference is the sum with the negative. -/
theorem sub_eq_add_neg (u v : UnpackedFloat) : u.sub f v = u.add f v.neg := by
  cases u with
  | notANumber => cases v <;> rfl
  | infinity s =>
    cases v with
    | infinity t => cases s <;> cases t <;> rfl
    | _ => rfl
  | zero s =>
    cases v with
    | zero t => cases s <;> cases t <;> rfl
    | _ => rfl
  | finite s m e =>
    cases v with
    | finite t n d =>
      have hneg : ∀ x : Int, (-t).apply x = -t.apply x := by
        intro x
        cases t
        · exact (Int.neg_neg x).symm
        · rfl
      simp [UnpackedFloat.sub, UnpackedFloat.add, UnpackedFloat.neg, hneg, Int.sub_eq_add_neg]
    | _ => rfl

theorem isNaN_add (hu : u.isFinite = true) (hv : v.isFinite = true) :
    (u.add f v).isNaN = false := by
  cases u with
  | notANumber | infinity => cases hu
  | zero s =>
    cases v with
    | notANumber | infinity => cases hv
    | zero t =>
      unfold UnpackedFloat.add
      dsimp only
      split <;> rfl
    | finite => rfl
  | finite s m e hm =>
    cases v with
    | notANumber | infinity => cases hv
    | zero => rfl
    | finite => exact isNaN_normalize ..

theorem isNaN_sub (hu : u.isFinite = true) (hv : v.isFinite = true) :
    (u.sub f v).isNaN = false := by
  rw [sub_eq_add_neg]
  exact isNaN_add f hu (isFinite_neg hv)

theorem isNaN_mul (hu : u.isFinite = true) (hv : v.isFinite = true) :
    (u.mul f v).isNaN = false := by
  cases u with
  | notANumber | infinity => cases hu
  | zero s =>
    cases v with
    | notANumber | infinity => cases hv
    | zero | finite => rfl
  | finite s m e hm =>
    cases v with
    | notANumber | infinity => cases hv
    | zero => rfl
    | finite => exact isNaN_roundWithAccuracy ..

/-- What has another exponent than infinity is a number. -/
theorem isNaN_unpack_packComponents (s : UnpackedFloat.Sign)
    {e : BitVec Format.binary64.exponentBits}
    (m : BitVec Format.binary64.mantissaBitsWithoutImplicit) (he : e ≠ -1#_) :
    (UnpackedFloat.unpack Format.binary64
      (UnpackedFloat.packComponents Format.binary64 s e m)).isNaN = false := by
  unfold UnpackedFloat.unpack
  dsimp only
  rw [UnpackedFloat.unpackExponent_packComponents, if_neg he]
  split
  · split <;> rfl
  · rfl

theorem isNaN_unpack_pack (h : u.isNaN = false) : (pack u).unpack.isNaN = false := by
  change (UnpackedFloat.unpack Format.binary64 (UnpackedFloat.pack Format.binary64 u)).isNaN = false
  cases u with
  | notANumber => cases h
  | infinity s => cases s <;> rfl
  | zero s => cases s <;> rfl
  | finite s m e hm =>
    unfold UnpackedFloat.pack
    dsimp only
    split
    case isTrue => cases s <;> rfl
    case isFalse hfits =>
      split
      case isTrue =>
        refine isNaN_unpack_packComponents _ _ fun heq => ?_
        have hfield := congrArg BitVec.toNat heq
        rw [BitVec.toNat_ofNat] at hfield
        change _ % 2 ^ 11 = 2047 at hfield
        change ¬ 2 ^ 11 ≤ _ at hfits
        omega
      case isFalse => exact isNaN_unpack_packComponents _ _ (by decide)

/-- The bits up to those of infinity are not those of something that is not a number. -/
theorem isNaN_unpack {b : UInt64} (h : b.toNat ≤ Decimal.Binary64.infinityBits) :
    (UnpackedFloat.unpack Format.binary64 b.toBitVec).isNaN = false := by
  unfold UnpackedFloat.unpack
  dsimp only
  split
  case isTrue hexponent =>
    split
    case isTrue => rfl
    case isFalse hmantissa =>
      have hfield := congrArg BitVec.toNat hexponent
      have hfraction : b.toNat % 2 ^ 52 ≠ 0 := fun hzero =>
        hmantissa (BitVec.eq_of_toNat_eq ((Decimal.toNat_unpackMantissa b.toBitVec).trans hzero))
      rw [Decimal.toNat_unpackExponent] at hfield
      change b.toNat / 2 ^ 52 % 2 ^ 11 = 2047 at hfield
      change b.toNat ≤ 2047 * 2 ^ 52 at h
      omega
  case isFalse =>
    split
    · split <;> rfl
    · rfl

end UnpackedNumber

/-- No numeral stands for something that is not a number. -/
theorem isNaN_toFloat (n : Decimal.Numeral) : n.toFloat.isNaN = false :=
  UnpackedNumber.isNaN_unpack_pack (UnpackedNumber.isNaN_unpack
    ((Decimal.toNat_toUInt64_le _).trans (Nat.min_le_right _ _)))

theorem isFinite_iff {x : Float} : x.isFinite = true ↔ x.isNaN = false ∧ x.isInf = false :=
  UnpackedNumber.isFinite_iff x.toModel.unpack

/-- A double compares equal to itself unless it is not a number. -/
theorem beq_self_eq (x : Float) : (x == x) = !x.isNaN := UnpackedNumber.beq_self x.toModel.unpack

/-! ## Watched doubles -/

/-- A double, and whether there was an infinity on the way to it. -/
structure Watched where
  value : Float
  overflowed : Bool

namespace Watched

/-- The double that was just calculated. -/
def watch (before : Bool) (value : Float) : Watched := ⟨value, before || value.isInf⟩

/-- Calculations and comparisons are those of doubles. -/
instance : Scalar Watched where
  add x y := watch (x.overflowed || y.overflowed) (x.value + y.value)
  sub x y := watch (x.overflowed || y.overflowed) (x.value - y.value)
  mul x y := watch (x.overflowed || y.overflowed) (x.value * y.value)
  neg x := watch x.overflowed (-x.value)
  zero := watch false 0
  one := watch false 1
  beq x y := x.value == y.value
  ofNumeral n := watch false (Scalar.ofNumeral n)
  text x := Scalar.text x.value
  entryText x := Scalar.entryText x.value
  key x := Scalar.key x.value

theorem relabelling_value : Relabelling id Watched.value where
  injective := Function.injective_id
  beq _ _ := rfl
  alike _ _ := rfl
  anew _ := rfl
  add _ _ := rfl
  sub _ _ := rfl
  mul _ _ := rfl
  neg _ := rfl
  one := rfl

/-- Without an infinity on the way to it, the double is finite. -/
def Accounted (x : Watched) : Prop := x.overflowed = false → x.value.isFinite = true

theorem accounted_watch {before : Bool} {value : Float}
    (h : before = false → value.isNaN = false) : Accounted (watch before value) := by
  intro hx
  obtain ⟨hbefore, hvalue⟩ := Bool.or_eq_false_iff.1 hx
  exact isFinite_iff.2 ⟨h hbefore, hvalue⟩

theorem accounted_ofNumeral (n : Decimal.Numeral) : Accounted (Scalar.ofNumeral n) :=
  accounted_watch fun _ => isNaN_toFloat n

theorem calculated_accounted : Calculated Accounted where
  one := accounted_watch fun _ => rfl
  neg hx := accounted_watch fun h => UnpackedNumber.isNaN_unpack_pack
    ((UnpackedNumber.isFinite_iff _).1 (UnpackedNumber.isFinite_neg (hx h))).1
  add hx hy := accounted_watch fun h => by
    obtain ⟨hl, hr⟩ := Bool.or_eq_false_iff.1 h
    exact UnpackedNumber.isNaN_unpack_pack (UnpackedNumber.isNaN_add _ (hx hl) (hy hr))
  sub hx hy := accounted_watch fun h => by
    obtain ⟨hl, hr⟩ := Bool.or_eq_false_iff.1 h
    exact UnpackedNumber.isNaN_unpack_pack (UnpackedNumber.isNaN_sub _ (hx hl) (hy hr))
  mul hx hy := accounted_watch fun h => by
    obtain ⟨hl, hr⟩ := Bool.or_eq_false_iff.1 h
    exact UnpackedNumber.isNaN_unpack_pack (UnpackedNumber.isNaN_mul _ (hx hl) (hy hr))
  anew hx := hx

end Watched

/-! ## Reading -/

namespace Expr

open Watched (relabelling_value calculated_accounted accounted_ofNumeral)

theorem beq_self_iff_isNaN {e : Expr Float} :
    (e == e) = true ↔ ∀ x, .literal x ∈ e.postOrder → x.isNaN = false := by
  simp only [beq_self_iff, beq_self_eq, Bool.not_eq_true']

/-- A result compares equal to its copies, unless it is nothing but something that is not a number. -/
theorem beq_numbered_self {n : Nat} {e : Expr Float} :
    (e.numbered n == e.numbered n) = true ↔ ∀ x, e = .literal x → x.isNaN = false := by
  cases e with
  | literal x =>
    have hbeq : ((literal x).numbered n == (literal x).numbered n) = (x == x) := rfl
    rw [hbeq, beq_self_eq, Bool.not_eq_true']
    exact ⟨fun h y hy => literal.inj hy ▸ h, fun h => h x rfl⟩
  | _ => exact ⟨nofun, fun _ => numbered_sameOperand_self n _⟩

/-- Operands of different results are the same as far as they are equal numbers. -/
theorem mapLiterals_sameOperand_iff {f g : Nat → Float → Tracked}
    (h : ∀ p x, Scalar.alike (f p x) (g p x) = (x == x)) (start : Nat) (e : Expr Float) :
    (e.mapLiterals f start).sameOperand (e.mapLiterals g start) = true ↔
      ∀ x, .literal x ∈ e.postOrder → x.isNaN = false := by
  induction e generalizing start with
  | var | scalarVar | null => simp [mapLiterals, sameOperand, postOrder]
  | literal x =>
    have hx := h start x
    simp [mapLiterals, sameOperand, postOrder, hx, beq_self_eq]
  | differential a ih | trace a ih | transpose a ih =>
    simpa [mapLiterals, sameOperand, postOrder] using ih start
  | add a b iha ihb | sub a b iha ihb | scale a b iha ihb | matMul a b iha ihb =>
    simp [mapLiterals, sameOperand, postOrder, iha, ihb, or_imp, forall_and]

/-- Two results compare equal if nothing in them is not a number, and only then. -/
theorem beq_numbered_ne {m n : Nat} (hne : m ≠ n) {e : Expr Float} :
    (e.numbered m == e.numbered n) = true ↔
      ∀ x, .literal x ∈ e.postOrder → x.isNaN = false := by
  have halike : ∀ p x, Scalar.alike (Tracked.track m p ⟨x, none⟩) (Tracked.track n p ⟨x, none⟩) =
      (x == x) := by
    intro p x
    simp [Scalar.alike, Tracked.track, Tracked.sameOrigin, Origin.track, hne]
  rw [← mapLiterals_sameOperand_iff halike 0 e]
  cases e with
  | literal x => exact (halike 0 x).symm ▸ Iff.rfl
  | _ => exact Iff.rfl

/-- Over watched doubles a source text is read as the same expression. Every literal of it that is
not a number has an infinity behind it, so where there is no infinity, each part of the expression
compares equal to itself. If something in it is not a number, it does not compare equal to what the
text is read as another time, and if it is nothing else, not even to its copies. -/
theorem exists_read_watched (declared : Declarations) (source : String) (e : Expr Float)
    (h : Expr.read declared source = .ok e) :
    (∃ w : Expr Watched, Expr.read declared source = .ok w ∧ w.relabel id Watched.value = e ∧
      (∀ x, .literal x ∈ w.postOrder → x.value.isNaN = true → x.overflowed = true) ∧
      ((∀ x, .literal x ∈ w.postOrder → x.overflowed = false) → e.Definite)) ∧
      (∀ n, (e.numbered n == e.numbered n) = true ↔ ∀ x, e = .literal x → x.isNaN = false) ∧
      ∀ m n, m ≠ n → ((e.numbered m == e.numbered n) = true ↔
        ∀ x, .literal x ∈ e.postOrder → x.isNaN = false) := by
  obtain ⟨w, hw, rfl⟩ := exists_read_relabel (ψ := Watched.watch false) relabelling_value
    (fun _ => rfl) (fun _ => rfl) h
  have hfinite := literals_of_read calculated_accounted accounted_ofNumeral hw
  refine ⟨⟨w, hw, rfl, fun x hx hnan => ?_, fun hclean => ?_⟩,
    fun _ => beq_numbered_self, fun _ _ hne => beq_numbered_ne hne⟩
  · by_contra ho
    rw [(isFinite_iff.1 (hfinite x hx (Bool.eq_false_iff.2 ho))).1] at hnan
    cases hnan
  · have hnumbers : (w.relabel id Watched.value).Literals fun x => x.isNaN = false :=
      .relabel fun x hx => (isFinite_iff.1 (hfinite x hx (hclean x hx))).1
    exact definite_iff.2 fun x hx => by rw [beq_self_eq, hnumbers x hx, Bool.not_false]

theorem exists_read_watched_scaledSum : ∃ e : Expr Float, Expr.read {} "2*(X+3*4*Y)" = .ok e ∧
    e.Definite ∧ (∀ x, .literal x ∈ e.postOrder → x.isNaN = false) ∧
      (e.numbered 0 == e.numbered 1) = true := by
  have hsome : (Expr.read {} "2*(X+3*4*Y)" : Except _ (Expr Float)).toOption.isSome = true := by
    decide +kernel
  have hclean : (Expr.read {} "2*(X+3*4*Y)" : Except _ (Expr Watched)).toOption.any
      (fun w => w.postOrder.all fun s => !s.value?.any Watched.overflowed) = true := by
    decide +kernel
  obtain ⟨e, he⟩ : ∃ e : Expr Float, Expr.read {} "2*(X+3*4*Y)" = .ok e := by
    revert hsome
    cases (Expr.read {} "2*(X+3*4*Y)" : Except (Located ReadError) (Expr Float)) <;>
      simp [Except.toOption]
  obtain ⟨⟨w, hw, -, -, hdefinite⟩, -, hagain⟩ := exists_read_watched {} "2*(X+3*4*Y)" e he
  rw [hw] at hclean
  have hparts : e.Definite := hdefinite fun x hx => by
    simpa [value?] using List.all_eq_true.1 hclean _ hx
  have hnumbers := beq_self_iff_isNaN.1 (hparts e (self_mem_postOrder e))
  exact ⟨e, he, hparts, hnumbers, (hagain 0 1 (by decide)).2 hnumbers⟩

/-! ## Products of numerals -/

section Numerals

variable {as bs cs : List Char}

theorem proper_numeral (h : Decimal.IsNumeral cs) : Word.Proper ⟨.number, String.ofList cs⟩ := by
  simpa [Word.Proper] using h

/-- The words of a product of two numerals. -/
theorem ofSource_product (ha : Decimal.IsNumeral as) (hb : Decimal.IsNumeral bs) :
    Word.ofSource (String.ofList (as ++ '*' :: bs)) =
      [⟨.number, String.ofList as⟩] ++ ⟨.times, "*"⟩ :: [⟨.number, String.ofList bs⟩] := by
  have hsign : Word.IsSign ⟨.times, "*"⟩ := ⟨⟨'*', rfl, rfl⟩, by decide⟩
  have hlegible := (Word.legible_singleton (proper_numeral ha)).sign hsign
    (Word.legible_singleton (proper_numeral hb))
  simpa using hlegible.ofSource_spell

variable {S : Type} [Scalar S]

theorem derives_numeral (cs : List Char) : Formula.Derives (S := S) .atom
    [⟨.number, String.ofList cs⟩] (.number (Scalar.ofNumeral (.ofChars cs))) := by
  simpa using Formula.Derives.number (S := S) (String.ofList cs)

/-- A product of two numerals is read as the product of their numbers. -/
theorem read_product_of_numerals (ha : Decimal.IsNumeral as) (hb : Decimal.IsNumeral bs)
    (declared : Declarations) : Expr.read declared (String.ofList (as ++ '*' :: bs)) =
      .ok (.literal (Scalar.ofNumeral (.ofChars as) * Scalar.ofNumeral (.ofChars bs) : S)) := by
  have hderives : Formula.Derives (S := S) .sum (Word.ofSource (String.ofList (as ++ '*' :: bs)))
      (.binary .times (.number (Scalar.ofNumeral (.ofChars as)))
        (.number (Scalar.ofNumeral (.ofChars bs)))) := by
    rw [ofSource_product ha hb]
    exact .ofProduct (.times "*" (.ofSigned (.ofOperand (.ofAtom (derives_numeral as))))
      (.ofOperand (.ofAtom (derives_numeral bs))))
  obtain ⟨f, hf, htree⟩ := Formula.parse_of_derives hderives
  refine read_eq_ok.2 ⟨f, hf, ?_⟩
  cases f with
  | binary op opSpan lhs rhs span =>
    obtain ⟨rfl, hl, hr⟩ := Formula.Tree.binary.inj htree
    cases lhs <;> cases hl
    cases rhs <;> cases hr
    rfl
  | _ => cases htree

end Numerals

theorem read_product_isNaN {as bs : List Char} (ha : Decimal.IsNumeral as)
    (hb : Decimal.IsNumeral bs) (declared : Declarations)
    (h : (Scalar.ofNumeral (.ofChars as) * Scalar.ofNumeral (.ofChars bs) : Float).isNaN = true) :
    ∃ e : Expr Float, Expr.read declared (String.ofList (as ++ '*' :: bs)) = .ok e ∧
      (∃ x, .literal x ∈ e.postOrder ∧ x.isNaN = true) ∧ (e == e) = false := by
  refine ⟨_, read_product_of_numerals ha hb declared, ⟨_, List.mem_singleton_self _, h⟩, ?_⟩
  exact (beq_self_eq _).trans (congrArg not h)

/-- A one with 309 zeros behind it. -/
def hugeNumeral : List Char := '1' :: List.replicate 309 '0'

theorem isNumeral_hugeNumeral : Decimal.IsNumeral hugeNumeral := by
  refine .whole (List.cons_ne_nil _ _) fun c hc => ?_
  rcases List.mem_cons.1 hc with rfl | hc
  · rfl
  · exact Decimal.isDigit_of_mem_zeros c hc

theorem read_overflowing : ∃ e : Expr Float,
    Expr.read {} (String.ofList (['0'] ++ '*' :: hugeNumeral)) = .ok e ∧
      (∃ x, .literal x ∈ e.postOrder ∧ x.isNaN = true) ∧ (e == e) = false := by
  have hzero : Decimal.IsNumeral ['0'] :=
    .whole (List.cons_ne_nil _ _) (List.forall_mem_singleton.2 rfl)
  have hnan : (Scalar.ofNumeral (.ofChars ['0']) *
      Scalar.ofNumeral (.ofChars hugeNumeral) : Float).isNaN = true := by
    decide +kernel
  exact read_product_isNaN hzero isNumeral_hugeNumeral {} hnan

end Expr

end TraceCalculus
