import Mathlib.Data.List.Induction
import Mathlib.Data.List.Nodup
import Mathlib.Logic.Relation
import Fabric.Calls.Search

namespace Fabric

section

variable {α : Type} {next : α → List α} {nodes : List α}

def Leads (next : α → List α) : α → α → Prop :=
  Relation.ReflTransGen fun a b ↦ b ∈ next a

def Closed (next : α → List α) (nodes : List α) : Prop :=
  ∀ a ∈ nodes, next a ⊆ nodes

def Acyclic (next : α → List α) (nodes : List α) : Prop :=
  ∀ a ∈ nodes, ∀ b ∈ nodes, Leads next a b → Leads next b a → a = b

theorem Closed.leads (hc : Closed next nodes) {a b : α} (h : Leads next a b) (ha : a ∈ nodes) :
    b ∈ nodes := by
  induction h with
  | refl => exact ha
  | tail _ hbc ih => exact hc _ ih hbc

def Sorted (next : α → List α) (order : List α) : Prop :=
  ∀ before a after, order = before ++ a :: after → next a ⊆ before

theorem Sorted.concat {order : List α} (h : Sorted next order) {a : α} (ha : next a ⊆ order) :
    Sorted next (order ++ [a]) := by
  intro before b after heq
  rcases List.eq_nil_or_concat after with rfl | ⟨rest, c, rfl⟩
  · obtain ⟨rfl, hab⟩ := List.append_inj' heq rfl
    obtain rfl := List.singleton_inj.1 hab
    exact ha
  · rw [List.concat_eq_append, ← List.cons_append, ← List.append_assoc] at heq
    obtain ⟨rfl, -⟩ := List.append_inj' heq rfl
    exact h before b rest rfl

end

namespace Search

section

variable {α : Type} {next : α → List α} {nodes : List α}

structure Valid (next : α → List α) (nodes : List α) (s : Search α) : Prop where
  entered : s.entered ⊆ nodes
  left : s.left ⊆ s.entered
  nodup : s.left.Nodup
  successors : ∀ a ∈ s.left, next a ⊆ s.entered

structure Goes (next : α → List α) (starts : List α) (s s' : Search α) : Prop where
  entered : s.entered ⊆ s'.entered
  left : s.left ⊆ s'.left
  fresh : ∀ a ∈ s'.left, a ∈ s.left ∨ a ∉ s.entered
  settled : ∀ a ∈ s'.entered, a ∈ s.entered ∨ a ∈ s'.left
  covers : starts ⊆ s'.entered
  source : ∀ a ∈ s'.entered, a ∈ s.entered ∨ ∃ b ∈ starts, Leads next b a

theorem Goes.refl (s : Search α) {starts : List α} (h : starts ⊆ s.entered) :
    Goes next starts s s where
  entered := List.Subset.refl _
  left := List.Subset.refl _
  fresh := fun _ hx ↦ .inl hx
  settled := fun _ hx ↦ .inl hx
  covers := h
  source := fun _ hx ↦ .inl hx

theorem Goes.cons {s s' s'' : Search α} {a : α} {as : List α} (h : Goes next [a] s s')
    (h' : Goes next as s' s'') : Goes next (a :: as) s s'' where
  entered := List.Subset.trans h.entered h'.entered
  left := List.Subset.trans h.left h'.left
  fresh := by
    intro x hx
    rcases h'.fresh x hx with hx | hx
    · exact h.fresh x hx
    · exact .inr fun hmem ↦ hx (h.entered hmem)
  settled := by
    intro x hx
    rcases h'.settled x hx with hx | hx
    · rcases h.settled x hx with hx | hx
      · exact .inl hx
      · exact .inr (h'.left hx)
    · exact .inr hx
  covers := by
    intro x hx
    rcases List.mem_cons.1 hx with rfl | hx
    · exact h'.entered (h.covers List.mem_cons_self)
    · exact h'.covers hx
  source := by
    intro x hx
    rcases h'.source x hx with hx | ⟨b, hb, hlead⟩
    · rcases h.source x hx with hx | ⟨b, hb, hlead⟩
      · exact .inl hx
      · exact .inr ⟨b, List.mem_cons.2 (.inl (List.mem_singleton.1 hb)), hlead⟩
    · exact .inr ⟨b, List.mem_cons_of_mem _ hb, hlead⟩

def enter (s : Search α) (a : α) : Search α :=
  { s with entered := a :: s.entered }

theorem Valid.enter {s : Search α} {a : α} (hs : s.Valid next nodes) (ha : a ∈ nodes) :
    (s.enter a).Valid next nodes where
  entered := List.cons_subset.2 ⟨ha, hs.entered⟩
  left := fun _ hx ↦ List.mem_cons_of_mem _ (hs.left hx)
  nodup := hs.nodup
  successors := fun x hx _ hy ↦ List.mem_cons_of_mem _ (hs.successors x hx hy)

theorem valid_start : (start : Search α).Valid next nodes :=
  ⟨List.nil_subset _, List.nil_subset _, List.nodup_nil, List.forall_mem_nil _⟩

def Above (next : α → List α) (s : Search α) (a : α) : Prop :=
  ∀ x ∈ s.entered, x ∈ s.left ∨ Leads next x a

end

variable {α : Type} [DecidableEq α] {next : α → List α} {nodes : List α}

def ahead (nodes : List α) (s : Search α) : Nat :=
  (nodes.filter fun a ↦ a ∉ s.entered).length

theorem ahead_le {s s' : Search α} (h : s.entered ⊆ s'.entered) :
    ahead nodes s' ≤ ahead nodes s := by
  apply List.Sublist.length_le
  apply List.monotone_filter_right
  intro a ha
  simp only [decide_eq_true_eq] at ha ⊢
  exact fun hmem ↦ ha (h hmem)

theorem ahead_lt {s : Search α} {a : α} (ha : a ∈ nodes) (hs : a ∉ s.entered) :
    ahead nodes (s.enter a) < ahead nodes s := by
  have hsub : (nodes.filter fun x ↦ x ∉ a :: s.entered).Sublist
      ((nodes.filter fun x ↦ x ∉ s.entered).filter fun x ↦ x ≠ a) := by
    rw [List.filter_filter]
    apply List.monotone_filter_right
    intro x hx
    simp only [List.mem_cons, not_or, decide_eq_true_eq] at hx
    simp [hx.1, hx.2]
  refine Nat.lt_of_le_of_lt hsub.length_le ?_
  exact List.length_filter_lt_length_iff_exists.2 ⟨a, by simp [ha, hs], by simp⟩

theorem visit_foldl {depth : Nat} {as : List α} {s : Search α}
    (ih : ∀ {s : Search α} {a : α}, a ∈ nodes → s.Valid next nodes → ahead nodes s < depth →
      (visit next depth s a).Valid next nodes ∧ Goes next [a] s (visit next depth s a))
    (has : as ⊆ nodes) (hs : s.Valid next nodes) (hdepth : ahead nodes s < depth) :
    (as.foldl (visit next depth) s).Valid next nodes ∧
      Goes next as s (as.foldl (visit next depth) s) := by
  induction as generalizing s with
  | nil => exact ⟨hs, .refl s (List.nil_subset _)⟩
  | cons a as ihas =>
    obtain ⟨ha, has⟩ := List.cons_subset.1 has
    obtain ⟨hs₁, hgo₁⟩ := ih ha hs hdepth
    obtain ⟨hs₂, hgo₂⟩ := ihas has hs₁ (Nat.lt_of_le_of_lt (ahead_le hgo₁.entered) hdepth)
    exact ⟨hs₂, hgo₁.cons hgo₂⟩

/-- A visit that is deep enough enters all that the node leads to. -/
theorem visit_goes (hc : Closed next nodes) {depth : Nat} {s : Search α} {a : α} (ha : a ∈ nodes)
    (hs : s.Valid next nodes) (hdepth : ahead nodes s < depth) :
    (visit next depth s a).Valid next nodes ∧ Goes next [a] s (visit next depth s a) := by
  induction depth generalizing s a with
  | zero => omega
  | succ depth ih =>
    rw [visit]
    by_cases hmem : a ∈ s.entered
    · rw [if_pos hmem]
      exact ⟨hs, .refl s (by simpa using hmem)⟩
    · rw [if_neg hmem]
      obtain ⟨hs', hgo⟩ := visit_foldl ih (hc a ha) (hs.enter ha)
        (Nat.lt_of_lt_of_le (ahead_lt ha hmem) (Nat.lt_succ_iff.1 hdepth))
      refine ⟨⟨hs'.entered, ?_, ?_, ?_⟩, ⟨?_, ?_, ?_, ?_, ?_, ?_⟩⟩
      · intro x hx
        rcases List.mem_append.1 hx with hx | hx
        · exact hs'.left hx
        · obtain rfl := List.mem_singleton.1 hx
          exact hgo.entered List.mem_cons_self
      · refine List.nodup_append.2 ⟨hs'.nodup, List.nodup_singleton a, ?_⟩
        rintro x hx y hy rfl
        obtain rfl := List.mem_singleton.1 hy
        rcases hgo.fresh x hx with hleft | hnot
        · exact hmem (hs.left hleft)
        · exact hnot List.mem_cons_self
      · intro x hx
        rcases List.mem_append.1 hx with hx | hx
        · exact hs'.successors x hx
        · obtain rfl := List.mem_singleton.1 hx
          exact hgo.covers
      · exact fun x hx ↦ hgo.entered (List.mem_cons_of_mem _ hx)
      · exact fun x hx ↦ List.mem_append_left _ (hgo.left hx)
      · intro x hx
        rcases List.mem_append.1 hx with hx | hx
        · exact (hgo.fresh x hx).imp id fun hnot hentered ↦ hnot (List.mem_cons_of_mem _ hentered)
        · obtain rfl := List.mem_singleton.1 hx
          exact .inr hmem
      · intro x hx
        rcases hgo.settled x hx with hx | hx
        · rcases List.mem_cons.1 hx with rfl | hx
          · exact .inr (List.mem_append_right _ List.mem_cons_self)
          · exact .inl hx
        · exact .inr (List.mem_append_left _ hx)
      · intro x hx
        obtain rfl := List.mem_singleton.1 hx
        exact hgo.entered List.mem_cons_self
      · intro x hx
        rcases hgo.source x hx with hx | ⟨b, hb, hlead⟩
        · rcases List.mem_cons.1 hx with rfl | hx
          · exact .inr ⟨x, List.mem_cons_self, .refl⟩
          · exact .inl hx
        · exact .inr ⟨a, List.mem_cons_self, .head hb hlead⟩

theorem visit_sorted (hc : Closed next nodes) (hacyclic : Acyclic next nodes)
    (hself : ∀ a, a ∉ next a) {depth : Nat} {s : Search α} {a : α} (ha : a ∈ nodes)
    (hs : s.Valid next nodes) (hdepth : ahead nodes s < depth) (habove : s.Above next a)
    (hsorted : Sorted next s.left) : Sorted next (visit next depth s a).left := by
  induction depth generalizing s a with
  | zero => omega
  | succ depth ih =>
    rw [visit]
    by_cases hmem : a ∈ s.entered
    · rwa [if_pos hmem]
    · rw [if_neg hmem]
      have hdepth' : ahead nodes (s.enter a) < depth :=
        Nat.lt_of_lt_of_le (ahead_lt ha hmem) (Nat.lt_succ_iff.1 hdepth)
      have hstep {bs : List α} {s : Search α} (hbs : bs ⊆ next a) (hs : s.Valid next nodes)
          (hdepth : ahead nodes s < depth) (habove : s.Above next a) (hsorted : Sorted next s.left) :
          Sorted next (bs.foldl (visit next depth) s).left := by
        induction bs generalizing s with
        | nil => exact hsorted
        | cons b bs ihbs =>
          obtain ⟨hb, hbs⟩ := List.cons_subset.1 hbs
          obtain ⟨hs', hgo⟩ := visit_goes hc (hc a ha hb) hs hdepth
          refine ihbs hbs hs' (Nat.lt_of_le_of_lt (ahead_le hgo.entered) hdepth) ?_ ?_
          · intro x hx
            rcases hgo.settled x hx with hx | hx
            · exact (habove x hx).imp (hgo.left ·) id
            · exact .inl hx
          · exact ih (hc a ha hb) hs hdepth (fun x hx ↦ (habove x hx).imp id (.tail · hb)) hsorted
      have henter : (s.enter a).Above next a := by
        intro x hx
        rcases List.mem_cons.1 hx with rfl | hx
        · exact .inr .refl
        · exact habove x hx
      obtain ⟨-, hgo⟩ := visit_foldl (visit_goes hc) (hc a ha) (hs.enter ha) hdepth'
      refine (hstep (List.Subset.refl _) (hs.enter ha) hdepth' henter hsorted).concat ?_
      -- A successor that was entered before and is not left would close a cycle.
      intro b hb
      rcases hgo.settled b (hgo.covers hb) with hentered | hleft
      · rcases henter b hentered with hleft | hlead
        · exact hgo.left hleft
        · obtain rfl := hacyclic a ha b (hc a ha hb) (.single hb) hlead
          exact absurd hb (hself a)
      · exact hleft

end Search

variable {α : Type} [DecidableEq α] {next : α → List α} {nodes : List α}

theorem Search.ahead_start : Search.ahead nodes (.start : Search α) < nodes.length + 1 :=
  Nat.lt_succ_of_le (List.length_filter_le _ _)

theorem mem_reachable (hc : Closed next nodes) {a b : α} (ha : a ∈ nodes) :
    b ∈ reachable next nodes a ↔ Leads next a b := by
  obtain ⟨hs, hgo⟩ := Search.visit_goes hc ha Search.valid_start Search.ahead_start
  constructor
  · intro hb
    rcases hgo.source b hb with hb | ⟨x, hx, hlead⟩
    · cases hb
    · rwa [List.mem_singleton.1 hx] at hlead
  · intro hlead
    induction hlead with
    | refl => exact hgo.covers List.mem_cons_self
    | tail _ hbc ih =>
      rcases hgo.settled _ ih with hentered | hleft
      · cases hentered
      · exact hs.successors _ hleft hbc

theorem leavingOrder_goes (hc : Closed next nodes) :
    (nodes.foldl (Search.visit next (nodes.length + 1)) .start).Valid next nodes ∧
      Search.Goes next nodes .start (nodes.foldl (Search.visit next (nodes.length + 1)) .start) :=
  Search.visit_foldl (Search.visit_goes hc) (List.Subset.refl _) Search.valid_start
    Search.ahead_start

theorem mem_leavingOrder (hc : Closed next nodes) {a : α} :
    a ∈ leavingOrder next nodes ↔ a ∈ nodes := by
  obtain ⟨hs, hgo⟩ := leavingOrder_goes hc
  constructor
  · intro ha
    exact hs.entered (hs.left ha)
  · intro ha
    rcases hgo.settled a (hgo.covers ha) with hentered | hleft
    · cases hentered
    · exact hleft

theorem mem_cycleClass (hc : Closed next nodes) {a b : α} (ha : a ∈ nodes) :
    b ∈ cycleClass next nodes a ↔ b ∈ nodes ∧ Leads next a b ∧ Leads next b a := by
  simp only [cycleClass, List.mem_filter, Bool.and_eq_true, List.contains_iff_mem]
  constructor
  · rintro ⟨hb, hab, hba⟩
    exact ⟨hb, (mem_reachable hc ha).1 hab, (mem_reachable hc hb).1 hba⟩
  · rintro ⟨hb, hab, hba⟩
    exact ⟨hb, (mem_reachable hc ha).2 hab, (mem_reachable hc hb).2 hba⟩

theorem cycleClass_eq (hc : Closed next nodes) {a b : α} (ha : a ∈ nodes)
    (hb : b ∈ cycleClass next nodes a) : cycleClass next nodes b = cycleClass next nodes a := by
  obtain ⟨hb, hab, hba⟩ := (mem_cycleClass hc ha).1 hb
  apply List.filter_congr
  intro x hx
  rw [Bool.eq_iff_iff]
  simp only [Bool.and_eq_true, List.contains_iff_mem, mem_reachable hc ha, mem_reachable hc hb,
    mem_reachable hc hx]
  constructor
  · rintro ⟨hbx, hxb⟩
    exact ⟨hab.trans hbx, hxb.trans hba⟩
  · rintro ⟨hax, hxa⟩
    exact ⟨hba.trans hax, hxa.trans hab⟩

theorem acyclic_of_firstCycle (hc : Closed next nodes) (h : firstCycle next nodes = none) :
    Acyclic next nodes := by
  intro a ha b hb hab hba
  by_contra hne
  have hco : Closed next (leavingOrder next nodes) := by
    intro x hx y hy
    rw [mem_leavingOrder hc] at hx ⊢
    exact hc x hx hy
  have ha' := (mem_leavingOrder hc).2 ha
  have hamem := (mem_cycleClass hco ha').2 ⟨ha', .refl, .refl⟩
  have hbmem := (mem_cycleClass hco ha').2 ⟨(mem_leavingOrder hc).2 hb, hab, hba⟩
  -- The last node of the class in the order is the one at which the class is found.
  have hlast := List.getLast?_eq_some_getLast (List.ne_nil_of_mem hamem)
  have hz := List.getLast_mem (List.ne_nil_of_mem hamem)
  have hclass := cycleClass_eq hco ha' hz
  have hlength : 1 < (cycleClass next (leavingOrder next nodes) a).length := by
    by_contra hle
    obtain ⟨x, hx⟩ := List.length_eq_one_iff.1
      (Nat.le_antisymm (Nat.le_of_not_lt hle) (List.length_pos_of_mem hamem))
    rw [hx, List.mem_singleton] at hamem hbmem
    exact hne (hamem.trans hbmem.symm)
  rw [firstCycle, Option.map_eq_none_iff] at h
  have hnone := List.find?_eq_none.1 h _ ((mem_cycleClass hco ha').1 hz).1
  apply hnone
  simp only [hclass, hlength, hlast, decide_true, Bool.and_self]

/-- What is found is a class of several nodes that lead to each other. -/
theorem firstCycle_eq_some (hc : Closed next nodes) {members : List α}
    (h : firstCycle next nodes = some members) :
    members.Nodup ∧ 1 < members.length ∧
      ∃ a ∈ nodes, ∀ b, b ∈ members ↔ b ∈ nodes ∧ Leads next a b ∧ Leads next b a := by
  have hco : Closed next (leavingOrder next nodes) := by
    intro x hx y hy
    rw [mem_leavingOrder hc] at hx ⊢
    exact hc x hx hy
  rw [firstCycle, Option.map_eq_some_iff] at h
  obtain ⟨a, hfind, rfl⟩ := h
  have ha := List.mem_of_find?_eq_some hfind
  have hfound := List.find?_some hfind
  rw [Bool.and_eq_true] at hfound
  refine ⟨(leavingOrder_goes hc).1.nodup.filter _, of_decide_eq_true hfound.1, a,
    (mem_leavingOrder hc).1 ha, fun b ↦ ?_⟩
  rw [mem_cycleClass hco ha, mem_leavingOrder hc]

theorem respects_reverse {order : List α} (hn : order.Nodup) (h : Sorted next order) :
    respects next order.reverse = true := by
  induction order using List.reverseRecOn with
  | nil => rfl
  | append_singleton before a ih =>
    rw [List.nodup_append] at hn
    have hbefore : Sorted next before := by
      intro x b y heq
      exact h x b (y ++ [a]) (by simp [heq])
    rw [List.reverse_append, List.reverse_singleton, List.singleton_append, respects, Bool.and_eq_true,
      List.all_eq_true]
    refine ⟨fun b hb ↦ ?_, ih hn.1 hbefore⟩
    obtain ⟨x, y, heq⟩ := List.append_of_mem (List.mem_reverse.1 hb)
    have hsub := h x b (y ++ [a]) (by simp [heq])
    rw [Bool.not_eq_true', ← Bool.not_eq_true, List.contains_iff_mem]
    intro hmem
    exact hn.2.2 a (heq ▸ List.mem_append_left _ (hsub hmem)) a List.mem_cons_self rfl

theorem sorted_leavingOrder (hc : Closed next nodes) (hacyclic : Acyclic next nodes)
    (hself : ∀ a, a ∉ next a) : Sorted next (leavingOrder next nodes) := by
  have hstep {as : List α} {s : Search α} (has : as ⊆ nodes) (hs : s.Valid next nodes)
      (hdepth : Search.ahead nodes s < nodes.length + 1) (hsettled : s.entered ⊆ s.left)
      (hsorted : Sorted next s.left) :
      Sorted next (as.foldl (Search.visit next (nodes.length + 1)) s).left := by
    induction as generalizing s with
    | nil => exact hsorted
    | cons a as ih =>
      obtain ⟨ha, has⟩ := List.cons_subset.1 has
      obtain ⟨hs', hgo⟩ := Search.visit_goes hc ha hs hdepth
      refine ih has hs' (Nat.lt_of_le_of_lt (Search.ahead_le hgo.entered) hdepth) ?_ ?_
      · intro x hx
        rcases hgo.settled x hx with hx | hx
        · exact hgo.left (hsettled hx)
        · exact hx
      · exact Search.visit_sorted hc hacyclic hself ha hs hdepth
          (fun x hx ↦ .inl (hsettled hx)) hsorted
  refine hstep (List.Subset.refl _) Search.valid_start Search.ahead_start (List.Subset.refl _) ?_
  intro before a after heq
  cases before <;> cases heq

/-- A graph without cycles has an order in which every node comes before its successors. -/
theorem callersFirst_of_acyclic (hc : Closed next nodes) (hacyclic : Acyclic next nodes)
    (hself : ∀ a, a ∉ next a) :
    callersFirst next nodes = some (leavingOrder next nodes).reverse := by
  have hnodup : (leavingOrder next nodes).Nodup := (leavingOrder_goes hc).1.nodup
  rw [callersFirst, if_pos (respects_reverse hnodup (sorted_leavingOrder hc hacyclic hself))]

end Fabric
