import Fabric.Proofs.Construction.Expr

namespace Fabric

theorem exists_of_mem_forall₂ {α β : Type} {R : α → β → Prop} {as : List α} {bs : List β}
    (h : List.Forall₂ R as bs) {b : β} (hb : b ∈ bs) : ∃ a ∈ as, R a b := by
  induction h with
  | nil => cases hb
  | cons hab _ ih =>
    rcases List.mem_cons.1 hb with rfl | hb
    · exact ⟨_, List.mem_cons_self, hab⟩
    · obtain ⟨a, ha, hab⟩ := ih hb
      exact ⟨a, List.mem_cons_of_mem _ ha, hab⟩

theorem map_eq_of_forall₂ {α β γ : Type} {f : α → γ} {g : β → γ} {as : List α} {bs : List β}
    (h : List.Forall₂ (fun a b ↦ g b = f a) as bs) : bs.map g = as.map f := by
  induction h with
  | nil => rfl
  | cons hab _ ih => rw [List.map_cons, List.map_cons, hab, ih]

theorem forall₂_trans {α β γ : Type} {R : α → β → Prop} {S : β → γ → Prop} {T : α → γ → Prop}
    (hT : ∀ a b c, R a b → S b c → T a c) {as : List α} {bs : List β} {cs : List γ}
    (h : List.Forall₂ R as bs) (h' : List.Forall₂ S bs cs) : List.Forall₂ T as cs := by
  induction h generalizing cs with
  | nil =>
    obtain rfl := List.forall₂_nil_left_iff.1 h'
    exact .nil
  | cons hab _ ih =>
    obtain ⟨c, cs, hbc, hrest, rfl⟩ := List.forall₂_cons_left_iff.1 h'
    exact .cons (hT _ _ _ hab hbc) (ih hrest)

namespace Synthesis

variable {α β : Type} {P Q : α → Prop} {x : Synthesis α}

theorem forall₂_of_mapM {f : α → Synthesis β} {as : List α} {bs : List β} (h : as.mapM f = .ok bs) :
    List.Forall₂ (fun a b ↦ f a = .ok b) as bs := by
  induction as generalizing bs with
  | nil =>
    obtain rfl := Except.ok.inj h
    exact .nil
  | cons a as ih =>
    rw [List.mapM_cons] at h
    obtain ⟨b, hb, h⟩ := Synthesis.bind_eq_ok.1 h
    obtain ⟨bs, hbs, h⟩ := Synthesis.bind_eq_ok.1 h
    obtain rfl := Except.ok.inj h
    exact .cons hb (ih hbs)

theorem exists_mapM {f : α → Synthesis β} {as : List α} (h : ∀ a ∈ as, ∃ b, f a = .ok b) :
    ∃ bs, as.mapM f = .ok bs := by
  induction as with
  | nil => exact ⟨[], rfl⟩
  | cons a as ih =>
    obtain ⟨⟨b, hb⟩, has⟩ := List.forall_mem_cons.1 h
    obtain ⟨bs, hbs⟩ := ih has
    rw [List.mapM_cons, hb, Synthesis.ok_bind, hbs]
    exact ⟨b :: bs, rfl⟩

theorem mapM_eq_ok_iff {f : α → Synthesis β} {as : List α} {bs : List β} :
    as.mapM f = .ok bs ↔ List.Forall₂ (fun a b ↦ f a = .ok b) as bs := by
  refine ⟨forall₂_of_mapM, fun h ↦ ?_⟩
  induction h with
  | nil => rfl
  | cons hab _ ih => rw [List.mapM_cons, hab, Synthesis.ok_bind, ih]; rfl

theorem exists_of_mapM_error {f : α → Synthesis β} {as : List α}
    {e : SynthesisError} (h : as.mapM f = .error e) : ∃ a ∈ as, f a = .error e := by
  induction as with
  | nil => cases h
  | cons a as ih =>
    rw [List.mapM_cons] at h
    cases ha : f a with
    | error e' =>
      rw [ha] at h
      obtain rfl := Except.error.inj h
      exact ⟨a, List.mem_cons_self, ha⟩
    | ok b =>
      rw [ha, Synthesis.ok_bind] at h
      cases has : as.mapM f with
      | error e' =>
        rw [has] at h
        obtain rfl := Except.error.inj h
        obtain ⟨a', ha', herror⟩ := ih has
        exact ⟨a', List.mem_cons_of_mem _ ha', herror⟩
      | ok bs =>
        rw [has] at h
        cases h

def Meets (x : Synthesis α) (Q : α → Prop) : Prop :=
  (∀ a, x = .ok a → Q a) ∧ ∀ reason, x ≠ .error (.inconsistent reason)

theorem meets_ok {a : α} (h : Q a) : Meets (.ok a) Q := by
  constructor
  · intro b hb
    cases hb
    exact h
  · intro reason hr
    cases hr

theorem meets_error {e : SynthesisError} (h : ∀ reason, e ≠ .inconsistent reason) :
    Meets (.error e : Synthesis α) Q := by
  constructor
  · intro b hb
    cases hb
  · intro reason hr
    exact h reason (Except.error.inj hr)

theorem meets_refused (construct member : String) :
    Meets (.error (.unsupported construct member) : Synthesis α) Q := by
  apply meets_error
  intro reason h
  cases h

namespace Meets

theorem ok {a : α} (h : Meets (.ok a) Q) : Q a := h.1 a rfl

theorem mono (h : x.Meets P) (hq : ∀ a, P a → Q a) : x.Meets Q :=
  ⟨fun a ha ↦ hq a (h.1 a ha), h.2⟩

/-- A result is known to be the one that was found. -/
theorem eq_ok (h : x.Meets P) : x.Meets fun a ↦ x = .ok a :=
  ⟨fun _ ha ↦ ha, h.2⟩

theorem bind {f : α → Synthesis β} {R : β → Prop} (h : x.Meets P) (hf : ∀ a, P a → (f a).Meets R) :
    (x >>= f).Meets R := by
  cases x with
  | ok a => exact hf a h.ok
  | error e =>
    refine meets_error fun reason he ↦ h.2 reason ?_
    rw [he]

theorem map {f : α → β} {R : β → Prop} (h : x.Meets P) (hf : ∀ a, P a → R (f a)) :
    Meets (x.map f) R := by
  cases x with
  | ok a => exact meets_ok (hf a h.ok)
  | error e =>
    refine meets_error fun reason he ↦ h.2 reason ?_
    rw [he]

theorem mapM {f : β → Synthesis α} {bs : List β} {R : β → α → Prop}
    (h : ∀ b ∈ bs, (f b).Meets (R b)) : (bs.mapM f).Meets fun as ↦ List.Forall₂ R bs as := by
  induction bs with
  | nil => exact meets_ok .nil
  | cons b bs ih =>
    obtain ⟨hb, hbs⟩ := List.forall_mem_cons.1 h
    rw [List.mapM_cons]
    refine bind hb ?_
    intro a ha
    refine bind (ih hbs) ?_
    intro as has
    exact meets_ok (.cons ha has)

/-- What every step of a fold preserves holds at its end. -/
theorem foldlM {f : α → β → Synthesis α} {bs : List β} (I : α → Prop) {a : α} (ha : I a)
    (h : ∀ b ∈ bs, ∀ a, I a → (f a b).Meets I) : (bs.foldlM f a).Meets I := by
  induction bs generalizing a with
  | nil => exact meets_ok ha
  | cons b bs ih =>
    obtain ⟨hb, hbs⟩ := List.forall_mem_cons.1 h
    rw [List.foldlM_cons]
    exact bind (hb a ha) fun a' ha' ↦ ih ha' hbs

end Meets

theorem meets_mapError {ε : Type} {f : ε → SynthesisError}
    (hf : ∀ e reason, f e ≠ .inconsistent reason) (x : Except ε α) :
    Meets (x.mapError f) fun a ↦ x = .ok a := by
  cases x with
  | ok a => exact meets_ok rfl
  | error e => exact meets_error (hf e)

end Synthesis

namespace SynthesisError

theorem ofTimingError_ne (e : TimingError) (reason : String) :
    ofTimingError e ≠ .inconsistent reason := by
  cases e <;> simp [ofTimingError]

theorem ofResolveError_ne (e : ResolveError) (reason : String) :
    ofResolveError e ≠ .inconsistent reason := by
  cases e <;> simp [ofResolveError, ofIndexError]

end SynthesisError

namespace TypeRef

variable (arrays : ArrayTable) (key member : String)

theorem meets_hardware (t : TypeRef) : (t.hardware arrays key member).Meets fun _ ↦ True := by
  refine ⟨fun _ _ ↦ trivial, ?_⟩
  intro reason h
  cases t with
  | array element =>
    cases element with
    | bool | int =>
      cases hr : arrays.require key with
      | ok length => simp [hardware, scalarHardware?, hr] at h
      | error e =>
        simp only [hardware, scalarHardware?, hr] at h
        exact SynthesisError.ofResolveError_ne e reason (Except.error.inj h)
    | _ => simp [hardware, scalarHardware?] at h
  | _ => simp [hardware] at h

theorem meets_resultHardware (t : TypeRef) :
    (t.resultHardware arrays key member).Meets fun _ ↦ True := by
  unfold resultHardware
  split
  · exact Synthesis.meets_ok trivial
  · exact (meets_hardware arrays key member t).map fun _ _ ↦ trivial

end TypeRef

namespace Lowering

open Synthesis

variable (l : Lowering) {α : Type} {Q : α → Prop}

theorem meets_unsupported (construct : String) : (l.unsupported construct).Meets Q :=
  meets_refused _ _

theorem meets_require (construct : String) (o : Option α) :
    (l.require construct o).Meets fun a ↦ o = some a := by
  cases o with
  | some a => exact meets_ok rfl
  | none => exact l.meets_unsupported construct

theorem meets_cost (op : Operator) (type : HwType) (constant : Option Int64) :
    (l.cost op type constant).Meets fun _ ↦ True := by
  refine (l.meets_require _ _).bind ?_
  rintro ⟨width, signed⟩ -
  exact (meets_mapError SynthesisError.ofTimingError_ne _).mono fun _ _ ↦ trivial

theorem meets_resultType (h : MemberHandle) : (l.resultType h).Meets fun _ ↦ True :=
  TypeRef.meets_resultHardware _ _ _ _

theorem meets_parameterType (callee : String) (p : Parameter) :
    (l.parameterType callee p).Meets fun _ ↦ True :=
  TypeRef.meets_hardware _ _ _ _

end Lowering

end Fabric
