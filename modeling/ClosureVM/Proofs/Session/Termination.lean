import ClosureVM.Proofs.Machine.Frames
import ClosureVM.Proofs.Machine.Recast
import ClosureVM.Proofs.Machine.Termination
import ClosureVM.Proofs.Session.Recursion

/-! Every run of compiled code ends. -/
namespace ClosureVM

namespace Session

variable {P : Machine → Prop} {s s₁ : Session} {program : Node} {code : Code}

/-- If a run ends within some limits without an overflow, its calls have a depth that no other
limits let it exceed. -/
theorem not_recursWithoutBound {ps : List Piece} {limits : Limits} {tracing : Bool}
    {r : Except Stop Value} {c' : Config}
    (hstart : ∀ limits tracing, Represents (s.machineWithin limits tracing code)
        (.start ps s.constants s.globals limits tracing s.fresh) ∧
      (Config.start ps s.constants s.globals limits tracing s.fresh).Typed fun _ => True)
    (he : (Config.start ps s.constants s.globals limits tracing s.fresh).Ends r c')
    (hr : ∀ stop, r = .error stop → ¬ stop.IsOverflow limits.maxFrames) :
    ¬ s.RecursWithoutBound tracing code := by
  intro hdeep
  obtain ⟨depth, hdepth⟩ := he.depth_le
  obtain ⟨l, m, hm, hle⟩ := hdeep (depth + 2)
  obtain ⟨hrep, htyped⟩ := hstart l tracing
  obtain ⟨d, hsteps, hrep', -⟩ :=
    hm.represents hrep htyped (fun _ _ => trivial) fun m _ => m.measures_true
  -- limits that allow for both runs
  let wide : Setting := {
    limits := ⟨max limits.stackSize l.stackSize, max limits.maxFrames l.maxFrames, none⟩
    constants := s.constants }
  have hwide : wide.Widens (.start ps s.constants s.globals limits tracing s.fresh) :=
    ⟨⟨Int.le_max_left .., Int.le_max_left ..⟩, .refl _⟩
  have hwide' : wide.Widens (.start ps s.constants s.globals l tracing s.fresh) :=
    ⟨⟨Int.le_max_right .., Int.le_max_right ..⟩, .refl _⟩
  have hd := Config.steps_recast hsteps hwide' rfl
  obtain ⟨e, he', hde⟩ := he.exists_of_recast hwide rfl rfl hr hd
  have hcallers : (d.recast wide).callers.length = (e.recast wide).callers.length := by rw [hde]
  have hcallers' : d.callers.length = e.callers.length := by
    rwa [Config.recast, Config.recast, length_extendLast, length_extendLast] at hcallers
  have := hdepth e he'
  rw [hrep'.depth_eq, hcallers'] at hle
  omega

/-- Every run of a program ends, within any limits. Its frames only move forward, and calls
without bound end in an overflow. -/
theorem Reached.run_ends (hs : Reached P s) (hc : s.compile program = (.ok code, s₁))
    (limits : Limits) (tracing : Bool) :
    (∃ fuel r m, (s₁.machineWithin limits tracing code).run? fuel = some (r, m)) ∧
    (∀ m m', Machine.Reaches (fun _ => True) (s₁.machineWithin limits tracing code) m →
      m.Next m' → m.Advances m') ∧
    (limits.maxSteps = none → s₁.RecursWithoutBound tracing code →
      ∃ fuel m f ip calls,
        (s₁.machineWithin limits tracing code).run? fuel = some (.error (.fault f ip calls), m) ∧
          (f = .stackOverflow ∨ f = .frameOverflow limits.maxFrames)) := by
  have hsound := hs.sound (fun _ _ => trivial) fun m _ => m.measures_true
  obtain ⟨ps, hstart⟩ := hsound.start hc
  obtain ⟨hrep, ht⟩ := hstart limits tracing
  obtain ⟨r, c', hends⟩ := ht.ends
  obtain ⟨fuel, m', hrun⟩ := hends.run? hrep
  refine ⟨?_, fun m m' hm hn => ?_, fun hnone hdeep => ?_⟩
  · obtain ⟨max, -, hrun⟩ | ⟨-, hrun⟩ := hrun
    · exact ⟨fuel, _, m', hrun⟩
    · exact ⟨fuel, _, m', hrun⟩
  · obtain ⟨c, -, hrep', -⟩ :=
      hm.represents hrep ht (fun _ _ => trivial) fun m _ => m.measures_true
    exact hrep'.advances hn
  · have hoverflow : ∃ stop, r = .error stop ∧ stop.IsOverflow limits.maxFrames := by
      by_contra hne
      exact not_recursWithoutBound hstart hends
        (fun stop hr ho => hne ⟨stop, hr, ho⟩) hdeep
    obtain ⟨stop, rfl, ho⟩ := hoverflow
    obtain ⟨max, hmax, -⟩ | ⟨-, hrun⟩ := hrun
    · exact absurd (hnone.symm.trans hmax) (by simp)
    · obtain rfl | rfl := ho
      · exact ⟨fuel, m', _, _, _, hrun, .inl rfl⟩
      · exact ⟨fuel, m', _, _, _, hrun, .inr rfl⟩

/-- A function that calls itself, run within the limits of a session. -/
theorem Reached.run_ends_self_call :
    ∃ code s₁, Session.compile {} (.program none (Node.selfCall "loop")) = (.ok code, s₁) ∧
      s₁.RecursWithoutBound false code ∧
      (∀ m m', Machine.Reaches (fun _ => True) (s₁.machineWithin {} false code) m →
        m.Next m' → m.Advances m') ∧
      ∃ fuel m f ip calls,
        (s₁.machineWithin {} false code).run? fuel = some (.error (.fault f ip calls), m) ∧
          (f = .stackOverflow ∨ f = .frameOverflow 1024) := by
  have hnew : Reached (fun _ => True) {} := .new false false none
  have hsome : (Session.compile {} (.program none (Node.selfCall "loop"))).1.toOption.isSome =
      true := by
    decide +kernel
  obtain ⟨code, hcode⟩ := Option.isSome_iff_exists.mp hsome
  have hc := compile_of_toOption hcode
  have hsound := hnew.sound (fun _ _ => trivial) fun m _ => m.measures_true
  have hdeep := hsound.recursWithoutBound (by decide) hc false
  obtain ⟨-, hadvances, hoverflow⟩ := run_ends hnew hc {} false
  exact ⟨code, _, hc, hdeep, hadvances, hoverflow rfl hdeep⟩

end Session

end ClosureVM
