import Contraction.Measurement.Settings
import Contraction.Proofs.Except

/-!
# Settings that can be used

A configuration is what a check makes of settings. Its two numbers are positive, whatever the
settings held for them, and checking it again changes nothing.
-/

namespace Contraction.Settings

variable {settings : Settings} {config : Config} {given : Datum} {refuse : Datum → SettingError}
  {n : Int}

theorem positive_eq_ok (h : positive given refuse = .ok n) : 0 < n := by
  rw [positive] at h
  split at h
  · cases h
  · split at h
    · cases h
    · next hpos =>
      obtain rfl := Except.ok.inj h
      omega

theorem positive_int (h : 0 < n) : positive (.int n) refuse = .ok n :=
  if_neg (by omega)

theorem check_pos (h : settings.check = .ok config) :
    0 < config.elementBytes ∧ 0 < config.defaultSize := by
  obtain ⟨elementBytes, helement, h⟩ := except_bind_eq_ok.mp h
  obtain ⟨defaultSize, hdefault, h⟩ := except_bind_eq_ok.mp h
  split at h
  · obtain rfl := Except.ok.inj h
    exact ⟨positive_eq_ok helement, positive_eq_ok hdefault⟩
  · cases h

/-- A configuration that has come of a check is left as it is by another one. -/
theorem check_ofConfig (h : settings.check = .ok config) :
    (ofConfig config).check = .ok config := by
  have hpos := check_pos h
  obtain ⟨elementBytes, -, h⟩ := except_bind_eq_ok.mp h
  obtain ⟨defaultSize, -, h⟩ := except_bind_eq_ok.mp h
  split at h
  · next unit hunit =>
    obtain rfl := Except.ok.inj h
    have hname : SizeUnit.ofAnyCase? unit.name = some unit := by
      cases unit <;> decide +kernel
    rw [check, ofConfig]
    simp only [positive_int hpos.1, positive_int hpos.2, Datum.plainText, hname, bind, Except.bind]
    rfl
  · cases h

end Contraction.Settings
