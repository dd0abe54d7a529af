import Fabric.Proofs.Binary64.Value
import Fabric.Proofs.Synthesis.Settings

namespace Fabric

namespace Frequency

variable {s s' : String} {f f' : Frequency}

theorem finite_scale (u : Unit) : u.scale.isFinite ∧ u.scale.isNegative = false := by
  cases u <;> decide +kernel

theorem exists_of_parse (h : parse s = .ok f) :
    ∃ value unit, value.isFinite ∧ 0 < value ∧ f.hz = value * Unit.scale unit := by
  unfold parse at h
  dsimp only at h
  cases hread : Decimal.read _ with
  | none =>
    rw [hread] at h
    cases h
  | some value =>
    rw [hread] at h
    dsimp only at h
    by_cases hvalue : (value.isFinite && decide (0 < value)) = true
    · rw [if_pos hvalue] at h
      obtain ⟨hfinite, hpos⟩ := Bool.and_eq_true_iff.1 hvalue
      cases h
      exact ⟨value, _, hfinite, of_decide_eq_true hpos, rfl⟩
    · rw [if_neg hvalue] at h
      cases h

theorem isNegative_of_parse (h : parse s = .ok f) : f.hz.isNegative = false := by
  obtain ⟨value, unit, hfinite, hpos, heq⟩ := exists_of_parse h
  obtain ⟨hscale, hsign⟩ := finite_scale unit
  rw [heq]
  exact Binary64.isNegative_mul hfinite hscale (Binary64.isNegative_of_pos hpos) hsign

/-- The whole number of hertz that is nearest to a clock, of two the larger one, in 64 bits. -/
def wholeHertz (f : Frequency) : Nat :=
  if f.hz.isFinite then min (twoPow 64 - 1) ⌊f.hz.value + 1 / 2⌋₊ else twoPow 64 - 1

def IsWhole (f : Frequency) : Prop :=
  f.hz.isFinite ∧ ∃ n : Nat, n < twoPow 64 ∧ f.hz.value = n

theorem isWhole_iff : f.IsWhole ↔ f.hz.isFinite ∧
    f.hz.dyadic.den ∣ f.hz.dyadic.num ∧ f.hz.dyadic.num / f.hz.dyadic.den < twoPow 64 := by
  have hden := f.hz.dyadic.den_pos
  have hvalue (n : Nat) : f.hz.value = n ↔ f.hz.dyadic.num = n * f.hz.dyadic.den := by
    rw [Binary64.value, Dyadic.value_eq_div, div_eq_iff (by exact_mod_cast hden.ne')]
    exact_mod_cast Iff.rfl
  simp only [IsWhole, hvalue]
  refine and_congr_right fun _ ↦ ⟨?_, ?_⟩
  · rintro ⟨n, hlt, hn⟩
    rw [hn, Nat.mul_div_cancel _ hden]
    exact ⟨Nat.dvd_mul_left _ _, hlt⟩
  · rintro ⟨hdvd, hlt⟩
    exact ⟨_, hlt, (Nat.div_mul_cancel hdvd).symm⟩

instance : Decidable f.IsWhole :=
  decidable_of_iff _ (isWhole_iff (f := f)).symm

theorem canonicalClock_of_parse (h : parse s = .ok f) :
    canonicalClock s = toString f.wholeHertz := by
  have hhertz : f.hz.roundWithin (twoPow 64 - 1) = f.wholeHertz := by
    by_cases hfinite : f.hz.isFinite
    · rw [Binary64.roundWithin_eq_floor hfinite, wholeHertz, if_pos hfinite]
    · rw [Binary64.roundWithin, wholeHertz, if_neg hfinite, if_neg hfinite]
  unfold canonicalClock
  simp only [h, hhertz]

theorem IsWhole.value_eq (h : f.IsWhole) : f.hz.value = f.wholeHertz := by
  obtain ⟨hfinite, n, hlt, hn⟩ := h
  have hfloor : ⌊f.hz.value + 1 / 2⌋₊ = n := by
    rw [hn, Nat.floor_eq_iff (by positivity)]
    constructor <;> norm_num
  rw [wholeHertz, if_pos hfinite, hfloor, Nat.min_eq_right (by omega), hn]

theorem eq_of_wholeHertz_eq (hs : parse s = .ok f) (hs' : parse s' = .ok f') (hf : f.IsWhole)
    (hf' : f'.IsWhole) (h : f.wholeHertz = f'.wholeHertz) : f = f' := by
  have hvalue : f.hz.value = f'.hz.value := by rw [hf.value_eq, hf'.value_eq, h]
  have hhz : f.hz = f'.hz :=
    Binary64.eq_of_magnitude_eq (isNegative_of_parse hs) (isNegative_of_parse hs')
      (Binary64.magnitude_eq_of_value_eq hvalue)
  cases f
  cases f'
  exact congrArg _ hhz

/-- Clocks are written alike if the same whole number of hertz is nearest to both. Those of whole hertz
are then the same, and configurations that have them make the same hardware if they have the same
canonical text, however the work is shared out. -/
theorem canonicalClock_eq_iff (hs : parse s = .ok f) (hs' : parse s' = .ok f') :
    (canonicalClock s = canonicalClock s' ↔ f.wholeHertz = f'.wholeHertz) ∧
    (f.IsWhole → f'.IsWhole →
      (canonicalClock s = canonicalClock s' → f = f') ∧
      ∀ (t : SyntaxTree) (identity : String) (c c' : Config), c.clockFrequency = some s →
        c'.clockFrequency = some s' → c.canonicalText = c'.canonicalText →
          TimingModel.ofConfig c = TimingModel.ofConfig c' ∧
            (∀ pool, t.run pool c identity false = t.run pool c' identity false) ∧
            ∀ pool pool' : Pool, pool.Collects → pool'.Collects → ∀ d,
              t.run pool c identity false = .ok d ↔ t.run pool' c' identity false = .ok d) := by
  have hiff : canonicalClock s = canonicalClock s' ↔ f.wholeHertz = f'.wholeHertz := by
    rw [canonicalClock_of_parse hs, canonicalClock_of_parse hs']
    exact ⟨Text.toString_injective, congrArg _⟩
  refine ⟨hiff, fun hf hf' ↦ ⟨fun h ↦ eq_of_wholeHertz_eq hs hs' hf hf' (hiff.1 h), ?_⟩⟩
  intro t identity c c' hc hc' htext
  have hsettings := Config.sameSettings_of_canonicalText htext
  have hclock := hsettings.clock
  rw [hc, hc'] at hclock
  have heq := eq_of_wholeHertz_eq hs hs' hf hf' (hiff.1 (Option.some_inj.1 hclock))
  have htiming : TimingModel.ofConfig c = TimingModel.ofConfig c' := by
    simp only [TimingModel.ofConfig, hsettings.device, hc, hc', hs, hs', heq]
  have hsame (pool : Pool) := t.run_eq_of_timing identity pool hsettings htiming
  refine ⟨htiming, hsame, fun pool pool' hpool hpool' d ↦ ?_⟩
  rw [hsame pool]
  exact SyntaxTree.run_eq_ok_iff hpool hpool' c' d

deriving instance DecidableEq for Binary64, Frequency

/-- One clock with two spellings. -/
theorem canonicalClock_eq_iff_hundred :
    let f : Frequency := ⟨⟨4726483295884279808⟩⟩
    let c : Config := { device := "Zynq-7020", clockFrequency := some "100MHz" }
    let c' : Config := { device := "Zynq-7020", clockFrequency := some " 0.1 ghz" }
    (parse "100MHz" = .ok f ∧ parse " 0.1 ghz" = .ok f ∧ f.IsWhole ∧
      c.canonicalText = c'.canonicalText) ∧
    canonicalClock "100MHz" = canonicalClock " 0.1 ghz" ∧
      TimingModel.ofConfig c = TimingModel.ofConfig c' := by
  intro f c c'
  have hs : parse "100MHz" = .ok f := by decide +kernel
  have hs' : parse " 0.1 ghz" = .ok f := by decide +kernel
  have hwhole : f.IsWhole := by decide +kernel
  have htext : c.canonicalText = c'.canonicalText := by decide +kernel
  obtain ⟨hiff, hclocks⟩ := canonicalClock_eq_iff hs hs'
  exact ⟨⟨hs, hs', hwhole, htext⟩, hiff.2 rfl,
    ((hclocks hwhole hwhole).2 (.ofTypes []) "" c c' rfl rfl htext).1⟩

/-- Two clocks that are written alike, and hardware for either of them. -/
theorem exists_canonicalClock_eq_of_ne :
    let c : Config := { device := "Zynq-7020", clockFrequency := some "1Hz" }
    let c' : Config := { device := "Zynq-7020", clockFrequency := some "1.4Hz" }
    ∃ f f', parse "1Hz" = .ok f ∧ parse "1.4Hz" = .ok f' ∧ f ≠ f' ∧
      canonicalClock "1Hz" = canonicalClock "1.4Hz" ∧ c.canonicalText = c'.canonicalText ∧
      (TimingModel.ofConfig c).toOption.map (·.device.clock) = some f ∧
      (TimingModel.ofConfig c').toOption.map (·.device.clock) = some f' :=
  ⟨⟨⟨4607182418800017408⟩⟩, ⟨⟨4608983858650965606⟩⟩, by decide +kernel⟩

end Frequency

end Fabric
