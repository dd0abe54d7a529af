import Fabric.Proofs.Text.Order
import Fabric.Proofs.Vhdl.Lines
import Mathlib.Data.List.Forall2
import Mathlib.Data.List.Nodup

namespace Fabric

/-- What compact names need to tell everything apart: members and parameters with names of their
own, and proxies and entry points of components, each with numbers and slots of its own. -/
structure Manifest.Distinct (m : Manifest) : Prop where
  components : (m.components.map Component.name).Nodup
  external : externalCaller ∉ m.components.map Component.name
  parameters : ∀ c ∈ m.components, (c.parameters.map ComponentPin.name).Nodup
  targets : (m.proxies.map Proxy.target).Nodup
  proxies : ∀ p ∈ m.proxies, p.target ∈ m.components.map Component.name
  slots : ∀ p ∈ m.proxies, p.slots.Nodup
  callers : ∀ p ∈ m.proxies, ∀ s ∈ p.slots,
    s.caller = externalCaller ∨ s.caller ∈ m.components.map Component.name
  entryPoints : ∀ e ∈ m.entryPoints, e.fullName ∈ m.components.map Component.name
  memberIds : (m.entryPoints.map EntryPointInfo.memberId).Nodup

/-- The parameters of a proxy have names of their own, and at most one is no parameter of the
component. -/
structure Proxy.Fits (p : Proxy) (c : Component) : Prop where
  names : (p.parameters.map ComponentPin.name).Nodup
  declared : ∀ a ∈ p.parameters, ∀ b ∈ p.parameters, a.name ∉ c.parameters.map ComponentPin.name →
    b.name ∉ c.parameters.map ComponentPin.name → a.name = b.name

namespace Vhdl

open Text

inductive Part
  | ports
  | entries
  | units
  | slots
  | dispatch
  | processes
  | proxies
deriving DecidableEq

namespace Part

def all : List Part :=
  [.ports, .entries, .units, .slots, .dispatch, .processes, .proxies]

end Part

def dataPins (pins : List ComponentPin) (returnType : Option HwType) : List PinKind :=
  pins.map (fun p ↦ .parameter p.name) ++ returnType.toList.map fun _ ↦ .result

def interfacePins (pins : List ComponentPin) (returnType : Option HwType) : List PinKind :=
  .started :: .finished :: dataPins pins returnType

namespace Names

def entryKinds (m : Manifest) (e : EntryPointInfo) : List PinKind :=
  match m.component? e.fullName with
  | some c => dataPins c.parameters c.returnType
  | none => []

def names (n : Names) (m : Manifest) : Part → List String
  | .ports => ["Clock", "Reset", "MemberId", "Started", "Finished"]
  | .entries => m.entryPoints.flatMap fun e ↦
      (entryKinds m e).map (n.entryPin e.fullName e.memberId.toNat)
  | .units => m.components.flatMap fun c ↦ (List.range c.instanceCount.toNat).flatMap fun k ↦
      (interfacePins c.parameters c.returnType).map (n.instanceSignal c.name k)
  | .slots => m.proxies.flatMap fun p ↦ p.slots.flatMap fun slot ↦
      (interfacePins p.parameters p.returnType).map (n.proxySlot p slot)
  | .dispatch => ["dispatch"]
  | .processes => m.components.flatMap fun c ↦
      (List.range c.instanceCount.toNat).map (n.processLabel c.name)
  | .proxies => m.proxies.flatMap fun p ↦
      if p.kind = .dispatcher then [n.proxyLabel p.target] else []

variable {n : Names} (hn : n.isVerbose = false) (p : Proxy)

include hn

omit hn in
theorem declares_value (hname : IsWord name) (t : HwType) :
    Declares [.line ("signal " ++ name ++ " : " ++ typeText t ++ " := "
      ++ (defaultCode t).print ++ ";")] [name] := by
  have hrest : Clean (typeText t ++ " := " ++ (defaultCode t).print ++ ";") :=
    .append (.append (.append (plain_typeText t).clean (by decide)) (plain_defaultCode t).clean)
      (by decide)
  simpa only [String.append_assoc] using declares_signal hname hrest

omit hn in
theorem declares_flag (hname : IsWord name) :
    Declares [.line ("signal " ++ name ++ " : boolean := false;")] [name] := by
  have hsignal := declares_signal hname (by decide : Clean "boolean := false;")
  rw [String.append_assoc] at hsignal
  exact hsignal

omit hn in
theorem declares_interfaceSignals {name : PinKind → String} (hname : ∀ pin, IsWord (name pin))
    (pins : List ComponentPin) (returnType : Option HwType) :
    Declares (interfaceSignals name pins returnType)
      ((interfacePins pins returnType).map name) := by
  have hflags := (declares_flag (hname .started)).append (declares_flag (hname .finished))
  have hpins := Declares.map fun (q : ComponentPin) (_ : q ∈ pins) ↦
    declares_value (hname (.parameter q.name)) q.type
  have hresult := Declares.map fun (t : HwType) (_ : t ∈ returnType.toList) ↦
    declares_value (hname .result) t
  simpa [interfaceSignals, interfacePins, dataPins, Function.comp_def] using
    (hflags.append hpins).append hresult

omit p in
theorem declares_instanceSignals (c : Component) : Declares (n.instanceSignals c)
    ((List.range c.instanceCount.toNat).flatMap fun k ↦
      (interfacePins c.parameters c.returnType).map (n.instanceSignal c.name k)) := by
  rw [instanceSignals, hn, if_neg Bool.false_ne_true]
  exact .flatMap fun k _ ↦ declares_interfaceSignals (isWord_instanceSignal hn c.name k) _ _

theorem declares_slotSignals : Declares (n.slotSignals p)
    (p.slots.flatMap fun slot ↦
      (interfacePins p.parameters p.returnType).map (n.proxySlot p slot)) := by
  rw [slotSignals, hn, if_neg Bool.false_ne_true]
  exact .flatMap fun slot _ ↦
    declares_interfaceSignals (fun pin ↦ isWord_slotSignal hn _ _ _ _ pin) _ _

omit p in
theorem declares_processes (c : Component) : Declares (n.processes c)
    ((List.range c.instanceCount.toNat).map (n.processLabel c.name)) := by
  have hblank : Silent [.blank] := by simp [isSilent_ends]
  rw [List.map_eq_flatMap]
  exact .flatMap fun k _ ↦ hblank.declares.append (Scope.declares_process hn)

omit p in
theorem silent_selected (e : EntryPointInfo) (c : Component) : Silent (n.selected e c) := by
  have hslot (pin : PinKind) : Plain (n.externalSlot e.fullName pin) :=
    (isWord_slotSignal hn _ _ _ _ pin).plain
  have hentry (pin : PinKind) : Plain (n.entryPin e.fullName e.memberId.toNat pin) :=
    (isWord_entryPin hn _ _ pin).plain
  have hwhen := isSilent_line (.append (.append (by decide : Plain "when ")
    (plain_toString e.memberId.toNat)) (by decide : Plain " =>"))
  have hstart := isSilent_connect (hslot .started) (by decide : Plain "Started = '1'")
  have hfinished := isSilent_if (hslot .finished)
  have hparameters : Silent (c.parameters.map fun q ↦
      connect (n.externalSlot e.fullName (.parameter q.name))
        (n.entryPin e.fullName e.memberId.toNat (.parameter q.name))) :=
    List.forall_mem_map.2 fun q _ ↦ isSilent_connect (hslot _) (hentry _)
  have hresult := isSilent_connect (hentry .result) (hslot .result)
  refine silent_cons.2 ⟨hwhen, ?_⟩
  simp +decide [hn, hstart, hparameters, hfinished, hresult, isSilent_line]

theorem declares_dispatch (m : Manifest) : Declares (n.dispatch m) ["dispatch"] := by
  have hlabel := declares_label (by decide : IsWord "dispatch")
  have hreset : Silent (m.entryPoints.map fun e ↦
      connect (n.externalSlot e.fullName .started) "false") :=
    List.forall_mem_map.2 fun e _ ↦
      isSilent_connect (isWord_slotSignal hn _ _ _ _ _).plain (by decide)
  unfold dispatch
  simp only [hn, Bool.false_eq_true, if_false, List.nil_append, List.append_assoc, List.cons_append]
  refine hlabel.cons ?_
  simp +decide only [silent_append, silent_cons, silent_indented, silent_nil, hreset,
    isSilent_line, and_true, true_and]
  refine silent_flatMap fun e _ ↦ ?_
  split
  next c _ => exact silent_selected hn e c
  next => exact silent_nil

def IsPort (pin name : String) : Prop :=
  IsWord name ∧ ∃ rest, Clean rest ∧ pin = name ++ " : " ++ rest

omit hn p in
theorem declares_pinLines {pins names : List String} (h : List.Forall₂ IsPort pins names) :
    Declares (pinLines pins) names := by
  induction h with
  | nil => exact silent_nil.declares
  | @cons pin name pins names hpin hrest ih =>
    obtain ⟨hname, rest, hclean, rfl⟩ := hpin
    cases hrest with
    | nil => exact declares_port hname hclean
    | cons =>
      have hfirst := declares_port hname (hclean.append (by decide : Clean ";"))
      rw [← String.append_assoc] at hfirst
      exact hfirst.append ih

omit p in
theorem isPort_entryPins (e : EntryPointInfo) (c : Component) :
    List.Forall₂ IsPort (n.entryPins e c)
      ((dataPins c.parameters c.returnType).map (n.entryPin e.fullName e.memberId.toNat)) := by
  have hport (pin : PinKind) (direction : String) (hd : Clean direction) (t : HwType) :
      IsPort (n.entryPin e.fullName e.memberId.toNat pin ++ (" : " ++ direction) ++ typeText t)
        (n.entryPin e.fullName e.memberId.toNat pin) := by
    refine ⟨isWord_entryPin hn _ _ pin, direction ++ typeText t, ?_, ?_⟩
    · exact hd.append (plain_typeText t).clean
    · simp only [String.append_assoc]
  rw [entryPins, dataPins, List.map_append, List.map_map, List.map_map]
  refine List.rel_append ?_ ?_
  · rw [List.forall₂_map_left_iff, List.forall₂_map_right_iff, List.forall₂_same]
    exact fun q _ ↦ hport (.parameter q.name) "in " (by decide) q.type
  · rw [List.forall₂_map_left_iff, List.forall₂_map_right_iff, List.forall₂_same]
    exact fun t _ ↦ hport .result "out " (by decide) t

omit p in
theorem declares_entity (m : Manifest) :
    Declares (n.entity m) (n.names m .ports ++ n.names m .entries) := by
  have hfixed (name direction : String) (hname : IsWord name) (hd : Clean direction) :
      IsPort (name ++ " : " ++ direction) name := ⟨hname, direction, hd, rfl⟩
  have hbit : Clean "in std_logic" := by decide
  have hpins : List.Forall₂ IsPort
      (["Clock : in std_logic", "Reset : in std_logic", "MemberId : in natural",
        "Started : in std_logic", "Finished : out std_logic"]
        ++ m.entryPoints.flatMap fun e ↦
          match m.component? e.fullName with
          | some c => n.entryPins e c
          | none => [])
      (n.names m .ports ++ n.names m .entries) := by
    refine List.rel_append ?_ ?_
    · exact .cons (hfixed "Clock" _ (by decide) hbit) (.cons (hfixed "Reset" _ (by decide) hbit)
        (.cons (hfixed "MemberId" "in natural" (by decide) (by decide))
          (.cons (hfixed "Started" _ (by decide) hbit)
            (.cons (hfixed "Finished" "out std_logic" (by decide) (by decide)) .nil))))
    · have hsame : List.Forall₂ (· = ·) m.entryPoints m.entryPoints :=
        List.forall₂_same.2 fun _ _ ↦ rfl
      refine List.rel_flatMap hsame ?_
      rintro e _ rfl
      dsimp only [entryKinds]
      split
      next c _ => exact isPort_entryPins hn e c
      next => exact .nil
  have hhead : Silent (libraries ++ [Step.line ("use work." ++ typesPackage ++ ".all;"), Step.blank,
      Step.line ("entity " ++ topEntity ++ " is")]) := by
    simp +decide [libraries, isSilent_line, isSilent_ends]
  have hopen : Silent [.line "port ("] := by simp +decide [isSilent_line]
  have hclose : Silent [.line ");"] := by simp +decide [isSilent_line]
  have hend : Silent [.line ("end entity " ++ topEntity ++ ";")] := by
    simp +decide [isSilent_line]
  have hports := ((hopen.declares.append (declares_pinLines hpins).indented).append
    hclose.declares).indented
  have h := (hhead.declares.append hports).append hend.declares
  simp only [List.nil_append, List.append_nil] at h
  exact h

omit p in
theorem declares_architecture (m : Manifest) : Declares (n.architecture m)
    (n.names m .units ++ n.names m .slots ++ n.names m .dispatch ++ n.names m .processes
      ++ n.names m .proxies) := by
  have hopen : Silent [.line ("architecture Behavioral of " ++ topEntity ++ " is")] := by
    simp +decide [isSilent_line]
  have hbegin : Silent [.line "begin"] := by simp +decide [isSilent_line]
  have hend : Silent [.line "end architecture Behavioral;"] := by simp +decide [isSilent_line]
  have hsignals := (Declares.flatMap fun c (_ : c ∈ m.components) ↦
    declares_instanceSignals hn c).append (.flatMap fun p (_ : p ∈ m.proxies) ↦
    declares_slotSignals hn p)
  have hprocesses := ((declares_dispatch hn m).append (.flatMap fun c (_ : c ∈ m.components) ↦
    declares_processes hn c)).append (.flatMap fun p (_ : p ∈ m.proxies) ↦ declares_proxy hn p)
  have h := (((hopen.declares.append hsignals.indented).append hbegin.declares).append
    hprocesses.indented).append hend.declares
  simpa only [architecture, names, List.nil_append, List.append_nil, List.append_assoc] using h

end Names

def compact (m : Manifest) : Names := ⟨.compact, m.components⟩

namespace Names

variable (n : Names) (m : Manifest)

def position? (member : String) : Option Nat :=
  (n.find? member).map Prod.snd

end Names

inductive Place
  | start
  | done
  | parameter (position : Nat)
  | result

namespace Place

def of (parameters : List ComponentPin) : PinKind → Place
  | .started => .start
  | .finished => .done
  | .parameter name => .parameter (parameters.findIdx fun p ↦ p.name = name)
  | .result => .result

def text : Place → String
  | .start => "start"
  | .done => "done"
  | .parameter position => "p" ++ toString position
  | .result => "ret"

theorem text_of (parameters : List ComponentPin) (pin : PinKind) :
    (of parameters pin).text = compactPin parameters pin := by
  cases pin <;> rfl

end Place

abbrev Piece := {s : String // '_' ∉ s.toList}

/-- What a name of compact mode stands for. Members are given by their positions, the outside by no
position. -/
inductive Identifier
  | fixed (name : Piece)
  | entry (memberId : Nat) (place : Place)
  | unit (member : Option Nat) (number : Nat) (place : Place)
  | slot (target caller : Option Nat) (callerInstance number : Nat) (place : Place)
  | process (member : Option Nat) (number : Nat)
  | proxy (target : Option Nat)

namespace Identifier

def tag : Option Nat → String
  | some position => "c" ++ toString position
  | none => "ext"

def pieces : Identifier → List String
  | .fixed name => [name]
  | .entry memberId place => ["m" ++ toString memberId, place.text]
  | .unit member number place => [tag member, toString number, place.text]
  | .slot target caller callerInstance number place =>
    [tag target, "from", tag caller, toString callerInstance, toString number, place.text]
  | .process member number => [tag member, toString number]
  | .proxy target => [tag target, "proxy"]

def text (i : Identifier) : String :=
  "_".intercalate i.pieces

theorem not_mem_tag (member : Option Nat) : '_' ∉ (tag member).toList := by
  cases member <;> simp [tag]

theorem not_mem_place (place : Place) : '_' ∉ place.text.toList := by
  cases place <;> simp [Place.text]

/-- The pieces of a name are found from it. -/
theorem pieces_of_text {i j : Identifier} (h : i.text = j.text) : i.pieces = j.pieces := by
  have hplain (i : Identifier) : ∀ piece ∈ i.pieces, '_' ∉ piece.toList := by
    cases i with
    | fixed name => exact List.forall_mem_singleton.2 name.2
    | _ => simp [pieces, not_mem_place, not_mem_tag]
  have hsplit (i : Identifier) : i.text.toList.splitOn '_' = i.pieces.map String.toList := by
    rw [text, String.toList_intercalate]
    apply List.splitOn_intercalate
    · exact List.forall_mem_map.2 (hplain i)
    · cases i <;> simp [pieces]
  have hpieces : i.pieces.map String.toList = j.pieces.map String.toList := by
    rw [← hsplit, ← hsplit, h]
  exact List.map_injective_iff.2 (fun _ _ ↦ String.toList_inj.1) hpieces

@[simp]
theorem repr_inj {m n : Nat} : m.repr = n.repr ↔ m = n :=
  ⟨fun h ↦ toString_injective h, congrArg _⟩

theorem toDigits_inj {m n : Nat} : Nat.toDigits 10 m = Nat.toDigits 10 n ↔ m = n := by
  rw [← repr_inj, Nat.repr, Nat.repr, String.ofList_inj]

@[simp]
theorem tag_inj {a b : Option Nat} : tag a = tag b ↔ a = b := by
  cases a <;> cases b <;> simp [tag, toDigits_inj, ← String.toList_inj]

@[simp]
theorem text_place_inj {a b : Place} : a.text = b.text ↔ a = b := by
  cases a <;> cases b <;> simp [Place.text, toDigits_inj, ← String.toList_inj]

theorem tag_ne (member : Option Nat) (n : Nat) : tag member ≠ "m" ++ n.repr := by
  cases member <;> simp [tag, ← String.toList_inj]

theorem repr_ne (n : Nat) : n.repr ≠ "proxy" := by
  intro h
  have hdigit : 'p'.isDigit := isDigit_of_mem_toString (n := n) (by simp [h])
  exact absurd hdigit (by decide)

theorem text_injective : Function.Injective text := by
  intro i j h
  have hpieces := pieces_of_text h
  clear h
  cases i <;> cases j <;>
    simp_all [pieces, Subtype.ext_iff, tag_ne, (tag_ne _ _).symm, repr_ne, (repr_ne _).symm]

def owner : Identifier → Option Nat
  | .unit member .. | .slot member .. | .process member _ | .proxy member => member
  | _ => none

def number : Identifier → Nat
  | .entry number _ | .unit _ number _ | .process _ number => number
  | _ => 0

def call : Identifier → Option Nat × Nat × Nat
  | .slot _ caller callerInstance number _ => (caller, callerInstance, number)
  | _ => (none, 0, 0)

end Identifier

/-- Lists under different keys have nothing in common. -/
theorem nodup_flatMap_of_key {α β γ : Type} {f : α → List β} {as : List α} (key : β → γ)
    (of : α → γ) (has : (as.map of).Nodup) (hf : ∀ a ∈ as, (f a).Nodup)
    (hkey : ∀ a ∈ as, ∀ b ∈ f a, key b = of a) : (as.flatMap f).Nodup := by
  rw [List.nodup_flatMap]
  refine ⟨hf, ?_⟩
  have hne : as.Pairwise fun a b ↦ of a ≠ of b := List.pairwise_map.1 has
  refine hne.imp_of_mem fun {a b} ha hb hab c hca hcb ↦ hab ?_
  rw [← hkey a ha c hca, ← hkey b hb c hcb]

section

variable {parameters pins : List ComponentPin}

/-- Only parameters that are not declared share a position. -/
theorem findIdx_inj {a b : String}
    (h : (parameters.findIdx fun p ↦ p.name = a) = parameters.findIdx fun p ↦ p.name = b) :
    a = b ∨ a ∉ parameters.map ComponentPin.name ∧ b ∉ parameters.map ComponentPin.name := by
  have hof {x : String} {q : ComponentPin}
      (hq : parameters[parameters.findIdx fun p ↦ p.name = x]? = some q) : q.name = x := by
    obtain ⟨hlt, rfl⟩ := List.getElem?_eq_some_iff.1 hq
    simpa using List.findIdx_getElem (w := hlt)
  have hmem {x : String} (hx : x ∈ parameters.map ComponentPin.name) :
      (parameters.findIdx fun p ↦ p.name = x) < parameters.length := by
    obtain ⟨q, hq, hqx⟩ := List.mem_map.1 hx
    exact List.findIdx_lt_length_of_exists ⟨q, hq, decide_eq_true hqx⟩
  cases hq : parameters[parameters.findIdx fun p ↦ p.name = a]? with
  | some q => exact .inl ((hof hq).symm.trans (hof (h ▸ hq)))
  | none =>
    have hlen := List.getElem?_eq_none_iff.1 hq
    exact .inr ⟨fun ha ↦ absurd (hmem ha) (by omega), fun hb ↦ absurd (hmem hb) (by omega)⟩

theorem nodup_places (returnType : Option HwType)
    (hnodup : (pins.map ComponentPin.name).Nodup)
    (hdeclared : ∀ a ∈ pins, ∀ b ∈ pins, a.name ∉ parameters.map ComponentPin.name →
      b.name ∉ parameters.map ComponentPin.name → a.name = b.name) :
    ((interfacePins pins returnType).map (Place.of parameters)).Nodup := by
  have hpositions : (pins.map fun p ↦ Place.parameter
      (parameters.findIdx fun q ↦ q.name = p.name)).Nodup := by
    refine (List.Nodup.of_map _ hnodup).map_on fun a ha b hb hab ↦ ?_
    apply List.inj_on_of_nodup_map hnodup ha hb
    rcases findIdx_inj (Place.parameter.inj hab) with heq | ⟨hna, hnb⟩
    · exact heq
    · exact hdeclared a ha b hb hna hnb
  cases returnType <;>
    simpa [interfacePins, dataPins, Place.of, Function.comp_def, List.nodup_append] using hpositions

end

namespace Names

variable {m : Manifest} {n : Names}

theorem mem_of_find? {member : String} {c : Component} {i : Nat}
    (h : n.find? member = some (c, i)) : n.components[i]? = some c ∧ c.name = member := by
  have hmem := List.mem_reverse.1 (List.mem_of_find?_eq_some h)
  exact ⟨List.mk_mem_zipIdx_iff_getElem?.1 hmem, by simpa using List.find?_some h⟩

theorem find?_eq (hn : (n.components.map Component.name).Nodup) {c : Component}
    (hc : c ∈ n.components) : ∃ i, n.find? c.name = some (c, i) := by
  obtain ⟨i, hi⟩ := List.getElem?_of_mem hc
  have hnames : (n.components.zipIdx.reverse.map fun x ↦ x.1.name).Nodup := by
    rw [← List.zipIdx_map_fst 0 n.components, List.map_map] at hn
    rwa [List.map_reverse, List.nodup_reverse]
  refine ⟨i, (find?_eq_some_of_nodup hnames).2 ⟨?_, rfl⟩⟩
  exact List.mem_reverse.2 (List.mk_mem_zipIdx_iff_getElem?.2 hi)

theorem position?_inj {a b : String} (ha : (n.find? a).isSome) (h : n.position? a = n.position? b) :
    a = b := by
  obtain ⟨⟨c, i⟩, hc⟩ := Option.isSome_iff_exists.1 ha
  have hb : n.position? b = some i := by rw [← h, position?, hc]; rfl
  obtain ⟨⟨d, j⟩, hd, rfl⟩ := Option.map_eq_some_iff.1 hb
  obtain ⟨hci, rfl⟩ := mem_of_find? hc
  obtain ⟨hdi, rfl⟩ := mem_of_find? hd
  rw [Option.some.inj (hci.symm.trans hdi)]

theorem tag_eq {member : String} (h : (n.find? member).isSome) :
    n.tag member = Identifier.tag (n.position? member) := by
  obtain ⟨⟨c, i⟩, hc⟩ := Option.isSome_iff_exists.1 h
  rw [tag, position?, hc]
  rfl

theorem processLabel_eq {member : String} (h : (n.find? member).isSome) (number : Nat) :
    n.processLabel member number = (Identifier.process (n.position? member) number).text := by
  rw [processLabel, tag_eq h]
  rfl

theorem proxyLabel_eq {target : String} (h : (n.find? target).isSome) :
    n.proxyLabel target = (Identifier.proxy (n.position? target)).text := by
  have hsplit : "_proxy" = "_" ++ "proxy" := rfl
  rw [proxyLabel, tag_eq h, hsplit, ← String.append_assoc]
  rfl

variable (hn : n.isVerbose = false)

include hn

theorem entryPin_eq (member : String) (memberId : Nat) (pin : PinKind) :
    n.entryPin member memberId pin =
      (Identifier.entry memberId (.of (n.parameters member) pin)).text := by
  rw [entryPin, hn, if_neg Bool.false_ne_true, ← Place.text_of]
  rfl

theorem instanceSignal_eq {member : String} (h : (n.find? member).isSome) (number : Nat)
    (pin : PinKind) : n.instanceSignal member number pin =
      (Identifier.unit (n.position? member) number (.of (n.parameters member) pin)).text := by
  rw [instanceSignal, hn, if_neg Bool.false_ne_true, tag_eq h, ← Place.text_of]
  rfl

theorem slotSignal_eq {target : String} (h : (n.find? target).isSome) (caller : String)
    (callerInstance slot : Nat) (pin : PinKind) :
    n.slotSignal target caller callerInstance slot pin =
      (Identifier.slot (n.position? target) (n.position? caller) callerInstance slot
        (.of (n.parameters target) pin)).text := by
  have hcaller : (if (n.find? caller).isSome then n.tag caller else "ext") =
      Identifier.tag (n.position? caller) := by
    split
    next hsome => exact tag_eq hsome
    next hnone =>
      rw [position?, Option.not_isSome_iff_eq_none.1 hnone]
      rfl
  have hsplit : "_from_" = "_" ++ "from" ++ "_" := rfl
  rw [slotSignal, hn, if_neg Bool.false_ne_true, tag_eq h]
  dsimp only
  rw [hcaller, ← Place.text_of, hsplit, ← String.append_assoc, ← String.append_assoc]
  rfl

end Names

namespace Part

def of : Identifier → Part
  | .fixed name => if name.1 = "dispatch" then .dispatch else .ports
  | .entry .. => .entries
  | .unit .. => .units
  | .slot .. => .slots
  | .process .. => .processes
  | .proxy .. => .proxies

end Part

def declarations (m : Manifest) : Part → List Identifier
  | .ports => [.fixed ⟨"Clock", by decide⟩, .fixed ⟨"Reset", by decide⟩,
      .fixed ⟨"MemberId", by decide⟩, .fixed ⟨"Started", by decide⟩, .fixed ⟨"Finished", by decide⟩]
  | .entries => m.entryPoints.flatMap fun e ↦ (Names.entryKinds m e).map fun pin ↦
      .entry e.memberId.toNat (.of ((compact m).parameters e.fullName) pin)
  | .units => m.components.flatMap fun c ↦ (List.range c.instanceCount.toNat).flatMap fun k ↦
      (interfacePins c.parameters c.returnType).map fun pin ↦
        .unit ((compact m).position? c.name) k (.of ((compact m).parameters c.name) pin)
  | .slots => m.proxies.flatMap fun p ↦ p.slots.flatMap fun slot ↦
      (interfacePins p.parameters p.returnType).map fun pin ↦
        .slot ((compact m).position? p.target) ((compact m).position? slot.caller)
          slot.callerInstance.toNat slot.slot.toNat (.of ((compact m).parameters p.target) pin)
  | .dispatch => [.fixed ⟨"dispatch", by decide⟩]
  | .processes => m.components.flatMap fun c ↦ (List.range c.instanceCount.toNat).map fun k ↦
      .process ((compact m).position? c.name) k
  | .proxies => m.proxies.flatMap fun p ↦
      if p.kind = .dispatcher then [.proxy ((compact m).position? p.target)] else []

theorem of_declarations (m : Manifest) (part : Part) :
    ∀ i ∈ declarations m part, Part.of i = part := by
  cases part with
  | ports | dispatch => simp [declarations, Part.of]
  | entries | processes =>
    exact List.forall_mem_flatMap.2 fun _ _ ↦ List.forall_mem_map.2 fun _ _ ↦ rfl
  | units | slots =>
    exact List.forall_mem_flatMap.2 fun _ _ ↦ List.forall_mem_flatMap.2 fun _ _ ↦
      List.forall_mem_map.2 fun _ _ ↦ rfl
  | proxies =>
    refine List.forall_mem_flatMap.2 fun p _ ↦ ?_
    split <;> simp [Part.of]

theorem silent_package (m : Manifest) : Silent (package m) := by
  have harray (t : HwType) : Silent (arrayDeclaration t) := by
    cases t with
    | array element length =>
      refine List.forall_mem_singleton.2 (isSilent_line ?_)
      exact .append (.append (.append (.append (.append (.append (by decide)
        (isWord_arrayTypeName _).plain) (by decide)) (plain_toString _)) (by decide))
        (plain_typeText element)) (by decide)
    | _ => exact silent_nil
  have hhead : Silent (libraries
      ++ [Step.blank, Step.line ("package " ++ typesPackage ++ " is")]) := by
    simp +decide [libraries, isSilent_line, isSilent_ends]
  have hend : Silent [.line ("end package " ++ typesPackage ++ ";")] := by
    simp +decide [isSilent_line]
  rw [package, silent_append, silent_append, silent_indented]
  exact ⟨⟨hhead, silent_flatMap fun t _ ↦ harray t⟩, hend⟩

theorem declares_steps (m : Manifest) (device : Device) (identity : String) :
    Declares (steps m device identity .compact) (Part.all.flatMap ((compact m).names m)) := by
  have hn : (compact m).isVerbose = false := rfl
  have hblank : Silent [.blank] := by simp [isSilent_ends]
  have hpackage := (silent_package m).declares.append hblank.declares
  have hall := ((hpackage.append (Names.declares_entity hn m)).append hblank.declares).append
    (Names.declares_architecture hn m)
  simpa [Part.all, steps, compact, Names.isVerbose] using hall

theorem flatMap_eq_map {α β γ : Type} {f : α → List β} {g : α → List γ} {text : β → γ} {as : List α}
    (h : ∀ a ∈ as, g a = (f a).map text) : as.flatMap g = (as.flatMap f).map text := by
  rw [List.map_flatMap]
  exact List.flatMap_congr h

section

variable {m : Manifest} (h : m.Distinct)

include h

theorem isSome_find? {member : String} (hmem : member ∈ m.components.map Component.name) :
    ((compact m).find? member).isSome := by
  obtain ⟨c, hc, rfl⟩ := List.mem_map.1 hmem
  obtain ⟨i, hi⟩ := Names.find?_eq (n := compact m) h.components hc
  rw [hi]
  rfl

theorem names_eq (part : Part) :
    (compact m).names m part = (declarations m part).map Identifier.text := by
  have hn : (compact m).isVerbose = false := rfl
  have hcomponent {c : Component} (hc : c ∈ m.components) : ((compact m).find? c.name).isSome :=
    isSome_find? h (List.mem_map_of_mem hc)
  have htarget {p : Proxy} (hp : p ∈ m.proxies) : ((compact m).find? p.target).isSome :=
    isSome_find? h (h.proxies p hp)
  cases part with
  | ports | dispatch => rfl
  | entries =>
    refine flatMap_eq_map fun e _ ↦ ?_
    rw [List.map_map]
    exact List.map_congr_left fun pin _ ↦ Names.entryPin_eq hn _ _ pin
  | units =>
    refine flatMap_eq_map fun c hc ↦ flatMap_eq_map fun k _ ↦ ?_
    rw [List.map_map]
    exact List.map_congr_left fun pin _ ↦ Names.instanceSignal_eq hn (hcomponent hc) k pin
  | slots =>
    refine flatMap_eq_map fun p hp ↦ flatMap_eq_map fun slot _ ↦ ?_
    rw [List.map_map]
    exact List.map_congr_left fun pin _ ↦ Names.slotSignal_eq hn (htarget hp) _ _ _ pin
  | processes =>
    refine flatMap_eq_map fun c hc ↦ ?_
    rw [List.map_map]
    exact List.map_congr_left fun k _ ↦ Names.processLabel_eq (hcomponent hc) k
  | proxies =>
    refine flatMap_eq_map fun p hp ↦ ?_
    rw [Names.proxyLabel_eq (htarget hp)]
    split <;> rfl

theorem parameters_eq {c : Component} (hc : c ∈ m.components) :
    (compact m).parameters c.name = c.parameters := by
  obtain ⟨i, hi⟩ := Names.find?_eq (n := compact m) h.components hc
  rw [Names.parameters, hi]

theorem nodup_positions {α : Type} {member : α → String} {as : List α} (has : (as.map member).Nodup)
    (hmem : ∀ a ∈ as, member a ∈ m.components.map Component.name) :
    (as.map fun a ↦ (compact m).position? (member a)).Nodup := by
  refine (List.Nodup.of_map _ has).map_on fun a ha b hb hab ↦ ?_
  exact List.inj_on_of_nodup_map has ha hb (Names.position?_inj (isSome_find? h (hmem a ha)) hab)

theorem nodup_pins {c : Component} (hc : c ∈ m.components) :
    ((interfacePins c.parameters c.returnType).map (Place.of c.parameters)).Nodup := by
  refine nodup_places c.returnType (h.parameters c hc) fun a ha _ _ hna _ ↦ ?_
  exact absurd (List.mem_map_of_mem ha) hna

omit h in
theorem nodup_named {pins : List PinKind} {parameters : List ComponentPin}
    {name : Place → Identifier} (hname : Function.Injective name)
    (hpins : (pins.map (Place.of parameters)).Nodup) :
    (pins.map fun pin ↦ name (.of parameters pin)).Nodup := by
  have hnames := hpins.map hname
  rwa [List.map_map] at hnames

theorem nodup_entries : (declarations m .entries).Nodup := by
  have hids : (m.entryPoints.map fun e ↦ e.memberId.toNat).Nodup := by
    have hnodup := h.memberIds.map (f := UInt32.toNat) fun _ _ ↦ UInt32.toNat_inj.1
    rwa [List.map_map] at hnodup
  apply nodup_flatMap_of_key Identifier.number _ hids
  · intro e _
    cases hfind : m.component? e.fullName with
    | none => simp [Names.entryKinds, hfind]
    | some c =>
      obtain ⟨hc, hname⟩ := mem_of_searchSorted hfind
      have hsub : (dataPins c.parameters c.returnType).Sublist
          (interfacePins c.parameters c.returnType) := .cons _ (.cons _ (.refl _))
      rw [Names.entryKinds, hfind, ← hname, parameters_eq h hc]
      exact nodup_named (fun _ _ hab ↦ (Identifier.entry.inj hab).2)
        ((nodup_pins h hc).sublist (hsub.map _))
  · exact fun e _ ↦ List.forall_mem_map.2 fun _ _ ↦ rfl

theorem nodup_units : (declarations m .units).Nodup := by
  have hmembers := nodup_positions h h.components fun c hc ↦ List.mem_map_of_mem hc
  apply nodup_flatMap_of_key Identifier.owner _ hmembers
  · intro c hc
    rw [parameters_eq h hc]
    apply nodup_flatMap_of_key Identifier.number id (by simpa using List.nodup_range)
    · intro k _
      exact nodup_named (fun _ _ hab ↦ (Identifier.unit.inj hab).2.2) (nodup_pins h hc)
    · exact fun k _ ↦ List.forall_mem_map.2 fun _ _ ↦ rfl
  · exact fun c _ ↦ List.forall_mem_flatMap.2 fun k _ ↦ List.forall_mem_map.2 fun _ _ ↦ rfl

theorem nodup_slots
    (hpins : ∀ p ∈ m.proxies, ∀ c ∈ m.components, c.name = p.target → p.Fits c) :
    (declarations m .slots).Nodup := by
  have htargets := nodup_positions h h.targets h.proxies
  apply nodup_flatMap_of_key Identifier.owner _ htargets
  · intro p hp
    obtain ⟨c, hc, hname⟩ := List.mem_map.1 (h.proxies p hp)
    have hcalls : (p.slots.map fun s ↦ ((compact m).position? s.caller, s.callerInstance.toNat,
        s.slot.toNat)).Nodup := by
      refine (h.slots p hp).map_on fun a ha b hb hab ↦ ?_
      simp only [Prod.mk.injEq, UInt32.toNat_inj] at hab
      have hcaller : a.caller = b.caller := by
        rcases h.callers p hp a ha with hexternal | hmem
        · rcases h.callers p hp b hb with hexternal' | hmem
          · rw [hexternal, hexternal']
          · exact (Names.position?_inj (isSome_find? h hmem) hab.1.symm).symm
        · exact Names.position?_inj (isSome_find? h hmem) hab.1
      cases a
      cases b
      simp_all
    rw [← hname, parameters_eq h hc]
    apply nodup_flatMap_of_key Identifier.call _ hcalls
    · intro slot _
      have hfits := hpins p hp c hc hname
      exact nodup_named (fun _ _ hab ↦ (Identifier.slot.inj hab).2.2.2.2)
        (nodup_places p.returnType hfits.names hfits.declared)
    · exact fun slot _ ↦ List.forall_mem_map.2 fun _ _ ↦ rfl
  · exact fun p _ ↦ List.forall_mem_flatMap.2 fun slot _ ↦ List.forall_mem_map.2 fun _ _ ↦ rfl

theorem nodup_processes : (declarations m .processes).Nodup := by
  have hmembers := nodup_positions h h.components fun c hc ↦ List.mem_map_of_mem hc
  apply nodup_flatMap_of_key Identifier.owner _ hmembers
  · intro c _
    exact List.nodup_range.map fun _ _ hab ↦ (Identifier.process.inj hab).2
  · exact fun c _ ↦ List.forall_mem_map.2 fun _ _ ↦ rfl

theorem nodup_proxies : (declarations m .proxies).Nodup := by
  have htargets := nodup_positions h h.targets h.proxies
  apply nodup_flatMap_of_key Identifier.owner _ htargets
  · intro p _
    split <;> simp
  · intro p _
    split <;> simp [Identifier.owner]

end

def declared (steps : List Step) : List String :=
  steps.filterMap Step.declared?

/-- Different ports, signals and processes have different names if the parameters of each proxy have
names of their own and are parameters of its component, but for one. -/
theorem nodup_declared (m : Manifest) (device : Device) (identity : String) (h : m.Distinct)
    (hpins : ∀ p ∈ m.proxies, ∀ c ∈ m.components, c.name = p.target → p.Fits c) :
    (declared (steps m device identity .compact)).Nodup := by
  rw [declared, (declares_steps m device identity).names_eq,
    flatMap_eq_map fun part _ ↦ names_eq h part]
  apply List.Nodup.map Identifier.text_injective
  apply nodup_flatMap_of_key Part.of id (by decide)
  · intro part _
    cases part with
    | ports => simp [declarations]
    | entries => exact nodup_entries h
    | units => exact nodup_units h
    | slots => exact nodup_slots h hpins
    | dispatch => simp [declarations]
    | processes => exact nodup_processes h
    | proxies => exact nodup_proxies h
  · exact fun part _ ↦ of_declarations m part

def calledManifest (component proxy : List ComponentPin) : Manifest :=
  { components := [⟨"T", component, none, [], [], [], 1, none⟩]
    proxies := [⟨"T", .direct, 1, [⟨externalCaller, 0, 0⟩], proxy, none⟩]
    memberIds := ⟨[⟨0, "T"⟩]⟩
    entryPoints := [⟨0, "T", [], "void", false, false⟩] }

theorem distinct_calledManifest (component proxy : List ComponentPin)
    (h : (component.map ComponentPin.name).Nodup) : (calledManifest component proxy).Distinct where
  components := List.nodup_singleton _
  external := by simp [calledManifest, externalCaller]
  parameters := List.forall_mem_singleton.2 h
  targets := List.nodup_singleton _
  proxies := by simp [calledManifest]
  slots := List.forall_mem_singleton.2 (List.nodup_singleton _)
  callers := by simp [calledManifest]
  entryPoints := by simp [calledManifest]
  memberIds := List.nodup_singleton _

/-- One parameter of a proxy may be missing in its component. -/
theorem nodup_declared_missing :
    (calledManifest [⟨"a", .boolean⟩] [⟨"a", .boolean⟩, ⟨"b", .boolean⟩]).Distinct ∧
      (declared (steps (calledManifest [⟨"a", .boolean⟩] [⟨"a", .boolean⟩, ⟨"b", .boolean⟩])
        ⟨"Zynq-7020", ⟨.ofDecimal 100 6⟩, [], 0⟩ "" .compact)).Nodup := by
  have hdistinct := distinct_calledManifest [⟨"a", .boolean⟩] [⟨"a", .boolean⟩, ⟨"b", .boolean⟩]
    (by decide)
  refine ⟨hdistinct, nodup_declared _ _ _ hdistinct ?_⟩
  rintro p hp c hc -
  obtain rfl := List.mem_singleton.1 hp
  obtain rfl := List.mem_singleton.1 hc
  exact ⟨by decide, by decide⟩

/-- Two parameters that are missing share a name. -/
theorem not_nodup_declared :
    (calledManifest [] [⟨"a", .boolean⟩, ⟨"b", .boolean⟩]).Distinct ∧ ∀ device identity,
      ¬(declared (steps (calledManifest [] [⟨"a", .boolean⟩, ⟨"b", .boolean⟩]) device identity
        .compact)).Nodup := by
  have hdistinct := distinct_calledManifest [] [⟨"a", .boolean⟩, ⟨"b", .boolean⟩] (by decide)
  refine ⟨hdistinct, fun device identity ↦ ?_⟩
  rw [declared, (declares_steps _ device identity).names_eq]
  decide +kernel

end Vhdl

end Fabric
