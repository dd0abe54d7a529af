import Fabric.Proofs.Construction.Learning

namespace Fabric

/-- A store of a value into an element of an array. -/
structure ElementStore where
  array : String
  index : HwExpr
  value : HwExpr

namespace HwStmt

mutual

def stores : HwStmt → List ElementStore
  | .assign (.element array index) value => [⟨array, index, value⟩]
  | .assign _ _ => []
  | .branch _ thenBody elseBody => storesAll thenBody ++ storesAll elseBody
  | .comment _ => []

def storesAll : List HwStmt → List ElementStore
  | [] => []
  | s :: ss => stores s ++ storesAll ss

end

end HwStmt

def Code.written (code : Code) : List HwStmt := code.flatMap Block.body

namespace Code

variable {code : Code} {i : Nat}

theorem written_append (code more : Code) :
    written (code ++ more) = code.written ++ written more :=
  List.flatMap_append

theorem written_redirect (code : Code) (i : Nat) (t : Transition DraftTarget) :
    (code.redirect i t).written = code.written := by
  induction code generalizing i with
  | nil => cases i <;> rfl
  | cons b code ih =>
    cases i with
    | zero => rfl
    | succ i => exact congrArg (b.body ++ ·) (ih i)

theorem written_extendAll (hi : i < code.length) (body : List HwStmt) :
    (code.extendAll i body).written.Perm (code.written ++ body) := by
  induction code generalizing i with
  | nil => cases hi
  | cons b code ih =>
    cases i with
    | zero =>
      have hperm : (body ++ written code).Perm (written code ++ body) := List.perm_append_comm
      have h := hperm.append_left b.body
      rwa [← List.append_assoc, ← List.append_assoc] at h
    | succ i =>
      have h := (ih (Nat.lt_of_succ_lt_succ hi)).append_left b.body
      rwa [← List.append_assoc] at h

theorem extendAll_of_le (hi : code.length ≤ i) (body : List HwStmt) :
    code.extendAll i body = code := by
  unfold extendAll
  rw [List.modify_eq_self hi]

theorem extendAll_extendAll (code : Code) (i : Nat) (body more : List HwStmt) :
    (code.extendAll i body).extendAll i more = code.extendAll i (body ++ more) := by
  unfold extendAll
  rw [List.modify_modify_eq]
  congr 1
  funext b
  exact congrArg (Block.mk b.id · b.transition) (List.append_assoc _ _ _)

theorem extend_eq (code : Code) (i : Nat) (s : HwStmt) : code.extend i s = code.extendAll i [s] := by
  rw [← extendAll_extend, extendAll_nil]

theorem written_extend (code : Code) (i : Nat) (s : HwStmt) :
    code.written ⊆ (code.extend i s).written := by
  rw [extend_eq]
  by_cases hi : i < code.length
  · exact fun x hx ↦ (written_extendAll hi [s]).mem_iff.2 (List.mem_append_left _ hx)
  · rw [extendAll_of_le (Nat.not_lt.1 hi)]
    exact List.Subset.refl _

end Code

namespace Draft

def written (d : Draft) : List HwStmt := d.code.written

def stores (d : Draft) : List ElementStore := d.written.flatMap HwStmt.stores

/-- From one draft to another only such statements are written. The open state stays one of the
states. -/
structure Writes (P : HwStmt → Prop) (d d' : Draft) : Prop where
  current : d.current < d.nextState → d'.current < d'.nextState
  written : ∃ new, d'.written.Perm (d.written ++ new) ∧ ∀ s ∈ new, P s

namespace Writes

variable {P : HwStmt → Prop} {d d' d'' : Draft}

theorem ofCode (hcode : d'.code = d.code) (hcurrent : d'.current = d.current) : d.Writes P d' where
  current h := by rwa [← d'.length_code, hcode, hcurrent, d.length_code]
  written := ⟨[], by rw [Draft.written, hcode, List.append_nil, Draft.written], List.forall_mem_nil _⟩

theorem refl (d : Draft) : d.Writes P d := ofCode rfl rfl

theorem trans (h : d.Writes P d') (h' : d'.Writes P d'') : d.Writes P d'' where
  current hi := h'.current (h.current hi)
  written := by
    obtain ⟨new, hnew, hP⟩ := h.written
    obtain ⟨more, hmore, hP'⟩ := h'.written
    refine ⟨new ++ more, ?_, List.forall_mem_append.2 ⟨hP, hP'⟩⟩
    rw [← List.append_assoc]
    exact hmore.trans (hnew.append_right more)

theorem subset (h : d.Writes P d') : d.written ⊆ d'.written := by
  obtain ⟨new, hnew, -⟩ := h.written
  exact fun s hs ↦ hnew.mem_iff.2 (List.mem_append_left new hs)

/-- What stores nothing leaves the stores of a draft as they are. -/
theorem stores (h : d.Writes (·.stores = []) d') : d'.stores.Perm d.stores := by
  obtain ⟨new, hnew, hnone⟩ := h.written
  have hperm := hnew.flatMap_right HwStmt.stores
  rwa [List.flatMap_append, List.flatMap_eq_nil_iff.2 hnone, List.append_nil] at hperm

theorem advance (d : Draft) (label : String) : d.Writes P (d.advance label) where
  current _ := by
    rw [current_advance]
    unfold Draft.advance
    dsimp only
    split <;> simp [Draft.enter, Draft.nextState, Draft.addState, Draft.link, Draft.setTransition,
      Draft.modifyState]
  written := by
    refine ⟨[], List.Perm.of_eq ?_, List.forall_mem_nil _⟩
    have hadd : (d.addState label).written = d.written := by
      rw [Draft.written, code_addState, Code.written_append]
      exact List.append_nil _
    rw [List.append_nil]
    unfold Draft.advance
    dsimp only
    split
    · exact hadd
    · rw [Draft.written, code_enter, code_link, Code.written_redirect]
      exact hadd

theorem openState (d : Draft) (label : String) : d.Writes P (d.openState label) := by
  obtain ⟨b, -, -, h⟩ | h := d.site_openState label
  · exact ofCode (congrArg Site.code (h 0 0 ∅)) (congrArg Site.current (h 0 0 ∅))
  · exact (advance d label).trans
      (ofCode (congrArg Site.code (h 0 0 ∅)) (congrArg Site.current (h 0 0 ∅)))

theorem reserve (d : Draft) (cost : Binary64) : d.Writes P (d.reserve cost) := by
  obtain h | h := d.site_reserve cost
  · exact ofCode (congrArg Site.code (h 0 0 ∅)) (congrArg Site.current (h 0 0 ∅))
  · exact (advance d "state").trans
      (ofCode (congrArg Site.code (h 0 0 ∅)) (congrArg Site.current (h 0 0 ∅)))

theorem push (d : Draft) {s : HwStmt} (hs : P s) : d.Writes P (d.push s) := by
  have hcode : (d.push s).code = d.code.extendAll d.current [s] :=
    (d.code_push s).trans (Code.extend_eq _ _ _)
  by_cases hi : d.current < d.code.length
  · refine ⟨fun h ↦ by rwa [← length_code, code_push, Code.length_extend, length_code], [s], ?_,
      List.forall_mem_singleton.2 hs⟩
    rw [Draft.written, hcode]
    exact Code.written_extendAll hi [s]
  · refine ofCode ?_ rfl
    rw [hcode, Code.extendAll_of_le (Nat.not_lt.1 hi)]

theorem emit (d : Draft) {s : HwStmt} (hs : P s) (cost : Binary64) :
    d.Writes P (d.emit s cost) :=
  (reserve d cost).trans (push _ hs)

end Writes

theorem Writes.choice (d : Draft) (type : HwType) (c a b : HwExpr) (cost : Binary64) :
    d.Writes (·.stores = []) ((d.temporary type "conditional value").2.emit
      (.branch c [.setVariable (tempName d.temporaries) a] [.setVariable (tempName d.temporaries) b])
      cost) :=
  have htemporary : d.Writes (·.stores = []) (d.temporary type "conditional value").2 :=
    .ofCode rfl rfl
  htemporary.trans (.emit (P := (·.stores = [])) _ rfl _)

theorem mem_written_push {d : Draft} (hi : d.current < d.nextState) (s : HwStmt) :
    s ∈ (d.push s).written := by
  have hcode : (d.push s).code = d.code.extendAll d.current [s] :=
    (d.code_push s).trans (Code.extend_eq _ _ _)
  rw [written, hcode]
  have hperm := Code.written_extendAll (by rwa [length_code] : d.current < d.code.length) [s]
  exact hperm.mem_iff.2 (List.mem_append_right _ (List.mem_singleton_self s))

end Draft

end Fabric
