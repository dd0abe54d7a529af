import Mathlib.Algebra.Group.Nat.Defs
import Mathlib.Data.List.Basic
import Fabric.Packed.Basic

namespace Fabric

namespace Text

theorem toList_eq_toList_data (bytes : ByteArray) : bytes.toList = bytes.data.toList := by
  have hloop (count i : Nat) (hi : i + count = bytes.size) (done : List UInt8) :
      ByteArray.toList.loop bytes i done = done.reverse ++ bytes.data.toList.drop i := by
    induction count generalizing i done with
    | zero =>
      rw [ByteArray.toList.loop, if_neg (by omega), List.drop_eq_nil_of_le, List.append_nil]
      rw [Array.length_toList]
      exact Nat.le_of_eq hi.symm
    | succ count ih =>
      have hlt : i < bytes.data.toList.length := by
        rw [Array.length_toList]
        exact Nat.lt_of_lt_of_eq (by omega) hi
      have hget : bytes.get! i = bytes.data.toList[i] := by
        rw [Array.getElem_toList]
        exact getElem!_pos bytes.data i _
      rw [ByteArray.toList.loop, if_pos (by omega), ih (i + 1) (by omega),
        List.drop_eq_getElem_cons hlt, hget, List.reverse_cons, List.append_assoc]
      rfl
  rw [ByteArray.toList, hloop bytes.size 0 (Nat.zero_add _)]
  rfl

theorem utf8_eq (s : String) : utf8 s = s.toByteArray.data.toList :=
  toList_eq_toList_data _

theorem length_utf8 (s : String) : (utf8 s).length = s.utf8ByteSize := by
  rw [utf8_eq, Array.length_toList]
  rfl

theorem utf8_injective {s s' : String} (h : utf8 s = utf8 s') : s = s' := by
  rw [utf8_eq, utf8_eq, Array.toList_inj] at h
  exact String.toByteArray_inj.1 (ByteArray.ext h)

end Text

namespace Packed

theorem length_littleEndian (count n : Nat) : (littleEndian count n).length = count := by
  induction count generalizing n with
  | zero => rfl
  | succ count ih => rw [littleEndian, List.length_cons, ih]

theorem ofLittleEndian_littleEndian {count n : Nat} (h : n < 256 ^ count) :
    ofLittleEndian (littleEndian count n) = n := by
  induction count generalizing n with
  | zero =>
    rw [Nat.pow_zero, Nat.lt_one_iff] at h
    rw [h]
    rfl
  | succ count ih =>
    have hdiv : n / 256 < 256 ^ count := Nat.div_lt_of_lt_mul (by rwa [Nat.pow_succ'] at h)
    rw [littleEndian, ofLittleEndian, ih hdiv, UInt8.toNat_ofNat']
    exact Nat.mod_add_div n 256

theorem takeBytes_append {count : Nat} {bytes : List UInt8} (h : bytes.length = count)
    (rest : List UInt8) : takeBytes count (bytes ++ rest) = some (bytes, rest) := by
  subst h
  simp [takeBytes]

def takeNat (count : Nat) : Unpack Nat := fun bytes ↦
  (takeBytes count bytes).map fun (bs, rest) ↦ (ofLittleEndian bs, rest)

theorem takeNat_littleEndian {count n : Nat} (h : n < 256 ^ count) (rest : List UInt8) :
    takeNat count (littleEndian count n ++ rest) = some (n, rest) := by
  rw [takeNat, takeBytes_append (length_littleEndian count n), Option.map_some]
  dsimp only
  rw [ofLittleEndian_littleEndian h]

theorem unpackNat_mark {size : Nat} (count : Nat) {mark : UInt8} {bytes : List UInt8}
    (hmark : (mark, count) ∈ [((251 : UInt8), 2), (252, 4), (253, 8)]) (hsize : count ≤ size) :
    unpackNat size (mark :: bytes) = takeNat count bytes := by
  have hmore : ¬ size < count := Nat.not_lt.2 hsize
  simp only [List.mem_cons, Prod.mk.injEq, List.not_mem_nil, or_false] at hmark
  rcases hmark with ⟨rfl, rfl⟩ | ⟨rfl, rfl⟩ | ⟨rfl, rfl⟩
  all_goals
    change (if size < _ then none else takeNat _ bytes) = _
    rw [if_neg hmore]

/-- A number is restored by a reader of its size, which takes the marks of all shorter ones too. -/
theorem unpackNat_packNat {size n : Nat} (hsize : size = 2 ∨ size = 4 ∨ size = 8)
    (hn : n < 256 ^ size) (rest : List UInt8) :
    unpackNat size (packNat n ++ rest) = some (n, rest) := by
  unfold packNat
  split
  next hsmall =>
    have hbyte : (UInt8.ofNat n).toNat = n := by
      rw [UInt8.toNat_ofNat']
      exact Nat.mod_eq_of_lt (by omega)
    simp only [List.cons_append, List.nil_append, unpackNat, hbyte, if_pos hsmall]
  split
  next h16 =>
    rw [List.cons_append, unpackNat_mark 2 (by decide) (by omega)]
    exact takeNat_littleEndian h16 rest
  split
  next h16 h32 =>
    have hlong : ¬ size = 2 := by
      rintro rfl
      exact h16 hn
    rw [List.cons_append, unpackNat_mark 4 (by decide) (by omega)]
    exact takeNat_littleEndian h32 rest
  next h16 h32 =>
    have hlong : ¬ size = 2 ∧ ¬ size = 4 := by
      constructor
      · rintro rfl
        exact h16 hn
      · rintro rfl
        exact h32 hn
    obtain rfl : size = 8 := by omega
    rw [List.cons_append, unpackNat_mark 8 (by decide) (Nat.le_refl 8)]
    exact takeNat_littleEndian hn rest

def Within (bound : Nat) (bytes : List UInt8) : Prop :=
  bytes.length < bound ∧ bytes.length < twoPow 64

theorem Within.of_append {bound : Nat} {bytes rest : List UInt8}
    (h : Within bound (bytes ++ rest)) : Within bound rest := by
  simp only [Within, List.length_append] at h ⊢
  omega

variable {α β : Type} {pack : α → List UInt8} {unpack : Unpack α} {bound : Nat} {a : α}

/-- A packed value is restored within a bound on the bytes, those that follow it included. Readers
of recursive values are bounded by their fuel. -/
def Restores (bound : Nat) (pack : α → List UInt8) (unpack : Unpack α) (a : α) : Prop :=
  ∀ rest, Within bound (pack a ++ rest) → unpack (pack a ++ rest) = some (a, rest)

theorem Restores.unpack_pack (h : Restores bound pack unpack a) (hbytes : Within bound (pack a)) :
    unpack (pack a) = some (a, []) := by
  have hrest := h []
  rw [List.append_nil] at hrest
  exact hrest hbytes

theorem Restores.bind {f : α × List UInt8 → Option β} {x : Option β} {rest : List UInt8}
    (h : Restores bound pack unpack a) (hbytes : Within bound (pack a ++ rest))
    (hf : Within bound rest → f (a, rest) = x) : (unpack (pack a ++ rest) >>= f) = x := by
  rw [h rest hbytes]
  exact hf hbytes.of_append

/-- A value that is packed as a value of another type. -/
theorem Restores.map {packed : β → List UInt8} {b : β} (h : Restores bound pack unpack a)
    (g : α → β) (hpack : packed b = pack a) (hvalue : g a = b) :
    Restores bound packed (fun bytes ↦ (unpack bytes).map fun x ↦ (g x.1, x.2)) b := by
  intro rest hbytes
  rw [hpack] at hbytes ⊢
  dsimp only
  rw [h rest hbytes, Option.map_some, hvalue]

/-- A reader with fuel has some left as long as there are bytes within the bound. -/
theorem restores_of_fuel {unpack : Nat → Unpack α} {fuel : Nat} (hfuel : bound ≤ fuel)
    (h : ∀ fuel, bound - 1 ≤ fuel → Restores bound pack (unpack (fuel + 1)) a) :
    Restores bound pack (unpack fuel) a := by
  intro rest hbytes
  cases fuel with
  | zero => exact absurd (Nat.lt_of_lt_of_le hbytes.1 hfuel) (Nat.not_lt_zero _)
  | succ fuel => exact h fuel (Nat.sub_le_of_le_add hfuel) rest hbytes

/-- A reader whose fuel is the number of bytes. -/
theorem restores_of_length {unpack : Nat → Unpack α}
    (h : ∀ bound fuel, bound ≤ fuel → Restores bound pack (unpack fuel) a) :
    Restores bound pack (fun bytes ↦ unpack (bytes.length + 1) bytes) a :=
  fun rest hbytes ↦ h _ _ (Nat.le_refl _) rest ⟨Nat.lt_succ_self _, hbytes.2⟩

theorem restores_nat {size n : Nat} (hsize : size = 2 ∨ size = 4 ∨ size = 8)
    (hn : n < 256 ^ size) : Restores bound packNat (unpackNat size) n :=
  fun rest _ ↦ unpackNat_packNat hsize hn rest

theorem restores_uint16 (n : UInt16) : Restores bound packUInt16 unpackUInt16 n :=
  (restores_nat (.inl rfl) n.toNat_lt).map UInt16.ofNat rfl UInt16.ofNat_toNat

theorem restores_uint32 (n : UInt32) : Restores bound packUInt32 unpackUInt32 n :=
  (restores_nat (.inr (.inl rfl)) n.toNat_lt).map UInt32.ofNat rfl UInt32.ofNat_toNat

theorem restores_uint64 (n : UInt64) : Restores bound packUInt64 unpackUInt64 n :=
  (restores_nat (.inr (.inr rfl)) n.toNat_lt).map UInt64.ofNat rfl UInt64.ofNat_toNat

theorem ofZigzag_zigzag (n : Int) : ofZigzag (zigzag n) = n := by
  unfold ofZigzag zigzag
  split <;> split <;> omega

theorem restores_int64 (n : Int64) : Restores bound packInt64 unpackInt64 n := by
  have hword : zigzag n.toInt < 256 ^ 8 := by
    have hlow := n.le_toInt
    have hhigh := n.toInt_lt
    unfold zigzag
    split <;> omega
  have hvalue : Int64.ofInt (ofZigzag (zigzag n.toInt)) = n := by
    rw [ofZigzag_zigzag, Int64.ofInt_toInt]
  exact (restores_nat (.inr (.inr rfl)) hword).map (fun n ↦ Int64.ofInt (ofZigzag n)) rfl hvalue

theorem restores_bool (b : Bool) : Restores bound packBool unpackBool b := by
  intro rest _
  cases b <;> rfl

theorem restores_binary64 (x : Binary64) : Restores bound packBinary64 unpackBinary64 x := by
  intro rest _
  rw [packBinary64, unpackBinary64, takeBytes_append (length_littleEndian 8 _), Option.map_some]
  dsimp only
  rw [ofLittleEndian_littleEndian x.bits.toNat_lt, UInt64.ofNat_toNat]

theorem restores_text (s : String) : Restores bound packText unpackText s := by
  intro rest hbytes
  have hdecode : String.fromUTF8? (ByteArray.mk (Text.utf8 s).toArray) = some s := by
    rw [Text.utf8_eq]
    exact dif_pos s.isValidUTF8
  rw [packText, List.append_assoc] at hbytes ⊢
  have hlength : (Text.utf8 s).length < 256 ^ 8 := by
    have hbound := hbytes.of_append.2
    rw [List.length_append] at hbound
    exact Nat.lt_of_le_of_lt (Nat.le_add_right _ _) hbound
  unfold unpackText
  refine (restores_nat (.inr (.inr rfl)) hlength).bind hbytes fun _ ↦ ?_
  dsimp only
  rw [takeBytes_append rfl]
  dsimp only [Option.bind_eq_bind, Option.bind_some]
  rw [hdecode]
  rfl

theorem restores_option {o : Option α} (h : ∀ a ∈ o, Restores bound pack unpack a) :
    Restores bound (packOption pack) (unpackOption unpack) o := by
  intro rest hbytes
  cases o with
  | none => rfl
  | some a =>
    have hmark : Within bound ([1] ++ (pack a ++ rest)) := hbytes
    have ha := h a rfl rest hmark.of_append
    rw [packOption, List.cons_append, unpackOption, ha, Option.map_some]

theorem restores_times {as : List α} (h : ∀ a ∈ as, Restores bound pack unpack a) {count : Nat}
    (hcount : as.length = count) :
    Restores bound (List.flatMap pack) (unpackTimes unpack count) as := by
  intro rest hbytes
  subst hcount
  induction as with
  | nil => rfl
  | cons a as ih =>
    rw [List.forall_mem_cons] at h
    rw [List.flatMap_cons, List.append_assoc] at hbytes ⊢
    rw [List.length_cons, unpackTimes, h.1 _ hbytes]
    dsimp only
    rw [ih h.2 hbytes.of_append, Option.map_some]

theorem length_le_length_flatMap {as : List α} (hne : ∀ a ∈ as, pack a ≠ []) :
    as.length ≤ (as.flatMap pack).length := by
  induction as with
  | nil => exact Nat.zero_le _
  | cons a as ih =>
    rw [List.forall_mem_cons] at hne
    have hpositive := List.length_pos_iff.2 hne.1
    have has := ih hne.2
    rw [List.flatMap_cons, List.length_append, List.length_cons]
    omega

/-- A value has a byte of its own if nothing is read from no bytes. -/
theorem Restores.ne_nil (h : Restores bound pack unpack a) (hempty : unpack [] = none)
    (hbound : 0 < bound) : pack a ≠ [] := by
  intro hnil
  have hread := h.unpack_pack (by rw [hnil]; exact ⟨hbound, twoPow_pos 64⟩)
  rw [hnil, hempty] at hread
  cases hread

theorem restores_list (hempty : unpack [] = none) {as : List α}
    (h : ∀ a ∈ as, Restores bound pack unpack a) :
    Restores bound (packList pack) (unpackList unpack) as := by
  intro rest hbytes
  rw [packList, List.append_assoc] at hbytes ⊢
  have hlength : as.length < 256 ^ 8 := by
    have hle := length_le_length_flatMap fun a ha ↦
      (h a ha).ne_nil hempty (Nat.zero_lt_of_lt hbytes.1)
    have hitems := hbytes.of_append.2
    rw [List.length_append] at hitems
    exact Nat.lt_of_le_of_lt (Nat.le_trans hle (Nat.le_add_right _ _)) hitems
  unfold unpackList
  refine (restores_nat (.inr (.inr rfl)) hlength).bind hbytes fun hbytes ↦ ?_
  exact restores_times h rfl rest hbytes

/-- A reader that goes on at the variant whose position it has read, with less fuel. -/
theorem bind_variant {position : Nat} {content rest : List UInt8}
    {f : Nat × List UInt8 → Option β} {x : Option β} (hposition : position < 251)
    (hbytes : Within bound (packVariant position content ++ rest))
    (hf : Within (bound - 1) (content ++ rest) → f (position, content ++ rest) = x) :
    (unpackNat 4 (packVariant position content ++ rest) >>= f) = x := by
  have hpack : packVariant position content ++ rest =
      packNat position ++ (content ++ rest) := by rw [packVariant, List.append_assoc]
  have hword : position < 256 ^ 4 := Nat.lt_trans hposition (by decide)
  rw [hpack] at hbytes ⊢
  refine (restores_nat (.inr (.inl rfl)) hword).bind hbytes fun _ ↦ hf ?_
  simp only [Within, packNat, if_pos hposition, List.length_append, List.length_singleton]
    at hbytes ⊢
  omega

theorem restores_choice [BEq α] [LawfulBEq α] {choices : List α} (ha : a ∈ choices)
    (hchoices : choices.length < 256 ^ 4) :
    Restores bound (fun a ↦ packNat (choices.idxOf a)) (unpackChoice choices) a := by
  intro rest hbytes
  have hlt := List.idxOf_lt_length_iff.2 ha
  refine (restores_nat (.inr (.inl rfl)) (Nat.lt_trans hlt hchoices)).bind hbytes fun _ ↦ ?_
  dsimp only
  rw [List.getElem?_eq_getElem hlt, List.getElem_idxOf hlt]
  rfl

end Packed

end Fabric

namespace Fabric.Packed

def Same (r s : List UInt8) : Prop :=
  r = s ∧ r.length < twoPow 64

theorem Same.of_append {as bs r s : List UInt8} (h : Same (as ++ r) (bs ++ s)) (hparts : as = bs) :
    Same r s := by
  subst hparts
  have hlength := h.2
  rw [List.length_append] at hlength
  exact ⟨List.append_cancel_left h.1, Nat.lt_of_add_left_lt hlength⟩

variable {α : Type} {pack : α → List UInt8} {a : α}

def Identifies (pack : α → List UInt8) (a : α) : Prop :=
  ∀ ⦃b : α⦄ ⦃r s : List UInt8⦄, Same (pack a ++ r) (pack b ++ s) → a = b ∧ Same r s

theorem identifies_of_restores {unpack : Unpack α}
    (h : ∀ a, Restores (twoPow 64) pack unpack a) (a : α) : Identifies pack a := by
  intro b r s hsame
  have ha := h a r ⟨hsame.2, hsame.2⟩
  rw [hsame.1] at ha
  have hlength := hsame.2
  rw [hsame.1] at hlength
  obtain ⟨rfl, rfl⟩ := Prod.mk.inj (Option.some.inj (ha.symm.trans (h b s ⟨hlength, hlength⟩)))
  exact ⟨rfl, hsame.of_append rfl⟩

theorem Same.nat {m n : Nat} {r s : List UInt8} (hm : m < twoPow 64) (hn : n < twoPow 64)
    (h : Same (packNat m ++ r) (packNat n ++ s)) : m = n ∧ Same r s := by
  have hread := unpackNat_packNat (.inr (.inr rfl)) hm r
  rw [h.1, unpackNat_packNat (.inr (.inr rfl)) hn s] at hread
  obtain ⟨rfl, rfl⟩ := Prod.mk.inj (Option.some.inj hread)
  exact ⟨rfl, h.of_append rfl⟩

theorem Same.variant {i j : Nat} {c d r s : List UInt8} (hi : i < 251) (hj : j < 251)
    (h : Same (packVariant i c ++ r) (packVariant j d ++ s)) : i = j ∧ Same (c ++ r) (d ++ s) := by
  rw [packVariant, packVariant, List.append_assoc, List.append_assoc] at h
  exact h.nat (Nat.lt_trans hi (by decide)) (Nat.lt_trans hj (by decide))

/-- One of some values is told apart by its position among them. -/
theorem identifies_position {position : α → Nat} (choices : List α)
    (hchoices : ∀ a, choices[position a]? = some a) (hlength : choices.length < twoPow 64) (a : α) :
    Identifies (fun a ↦ packNat (position a)) a := by
  intro b r s h
  have hlt (a : α) : position a < twoPow 64 :=
    Nat.lt_trans (List.getElem?_eq_some_iff.1 (hchoices a)).1 hlength
  obtain ⟨hposition, hrest⟩ := h.nat (hlt a) (hlt b)
  have hsome := hchoices a
  rw [hposition, hchoices b] at hsome
  exact ⟨(Option.some.inj hsome).symm, hrest⟩

theorem identifies_uint16 (n : UInt16) : Identifies packUInt16 n :=
  identifies_of_restores restores_uint16 n

theorem identifies_uint32 (n : UInt32) : Identifies packUInt32 n :=
  identifies_of_restores restores_uint32 n

theorem identifies_int64 (n : Int64) : Identifies packInt64 n :=
  identifies_of_restores restores_int64 n

theorem identifies_bool (b : Bool) : Identifies packBool b :=
  identifies_of_restores restores_bool b

theorem identifies_text (s : String) : Identifies packText s :=
  identifies_of_restores restores_text s

theorem identifies_option {o : Option α} (h : ∀ a ∈ o, Identifies pack a) :
    Identifies (packOption pack) o := by
  intro o' r s hsame
  cases o with
  | none =>
    cases o' with
    | none => exact ⟨rfl, hsame.of_append rfl⟩
    | some b => exact absurd (List.cons.inj hsame.1).1 (by decide)
  | some a =>
    cases o' with
    | none => exact absurd (List.cons.inj hsame.1).1 (by decide)
    | some b =>
      have hcontent : Same ([1] ++ (pack a ++ r)) ([1] ++ (pack b ++ s)) := hsame
      obtain ⟨rfl, hrest⟩ := h a rfl (hcontent.of_append rfl)
      exact ⟨rfl, hrest⟩

theorem identifies_flatMap {as bs : List α} (h : ∀ a ∈ as, Identifies pack a) {r s : List UInt8}
    (hlength : as.length = bs.length) (hsame : Same (as.flatMap pack ++ r) (bs.flatMap pack ++ s)) :
    as = bs ∧ Same r s := by
  induction as generalizing bs with
  | nil =>
    obtain rfl := List.length_eq_zero_iff.1 hlength.symm
    exact ⟨rfl, hsame⟩
  | cons a as ih =>
    cases bs with
    | nil => cases hlength
    | cons b bs =>
      rw [List.forall_mem_cons] at h
      rw [List.flatMap_cons, List.flatMap_cons, List.append_assoc, List.append_assoc] at hsame
      obtain ⟨rfl, htail⟩ := h.1 hsame
      obtain ⟨rfl, hrest⟩ := ih h.2 (Nat.succ.inj hlength) htail
      exact ⟨rfl, hrest⟩

theorem identifies_list (hne : ∀ a, pack a ≠ []) {as : List α} (h : ∀ a ∈ as, Identifies pack a) :
    Identifies (packList pack) as := by
  intro bs r s hsame
  have hbound {cs : List α} {rest : List UInt8}
      (hlength : (packList pack cs ++ rest).length < twoPow 64) : cs.length < twoPow 64 := by
    have hle := length_le_length_flatMap fun c (_ : c ∈ cs) ↦ hne c
    simp only [packList, List.length_append] at hlength
    omega
  have has := hbound hsame.2
  have hbs := hbound (hsame.1 ▸ hsame.2)
  rw [packList, packList, List.append_assoc, List.append_assoc] at hsame
  obtain ⟨hlength, hitems⟩ := hsame.nat has hbs
  exact identifies_flatMap h hlength hitems

@[simp]
theorem packNat_ne_nil (n : Nat) : packNat n ≠ [] := by
  unfold packNat
  split
  · exact List.cons_ne_nil _ _
  split
  · exact List.cons_ne_nil _ _
  split <;> exact List.cons_ne_nil _ _

@[simp]
theorem packUInt32_ne_nil (n : UInt32) : packUInt32 n ≠ [] := packNat_ne_nil _

@[simp]
theorem packVariant_ne_nil (position : Nat) (content : List UInt8) :
    packVariant position content ≠ [] := by
  simp [packVariant]

@[simp]
theorem packText_ne_nil (s : String) : packText s ≠ [] := by
  simp [packText]

end Fabric.Packed
