import Labyrinth.Settings.Document
import Labyrinth.Proofs.Json.Reading

/-!
# Settings read back

The document of settings is read as these settings, whether they are sensible or not
(`Settings.ofText_pretty`).
-/

namespace Labyrinth

open Json.Reader

namespace StartPose

theorem reads_number (n : Int64) : Reads number (.int n.toInt) n.toInt :=
  reads_integer n.minValue_le_toInt n.toInt_le (Int.le_refl _) (by decide)

/-- The draft that the members of a start leave. -/
def draft (p : StartPose) : Draft where
  x := some p.x.toInt
  y := some p.y.toInt
  dirX := some p.dirX.toInt
  dirY := some p.dirY.toInt

theorem complete_draft (p : StartPose) : p.draft.complete = .ok p := by
  rw [draft, Draft.complete]
  simp only [Int64.ofInt_toInt]

theorem collects_members (p : StartPose) :
    Collects member {} [("x", .int p.x.toInt), ("y", .int p.y.toInt), ("dir_x", .int p.dirX.toInt),
      ("dir_y", .int p.dirY.toInt)] p.draft :=
  .cons (reads_number p.x).once.bind_pure <| .cons (reads_number p.y).once.bind_pure <|
    .cons (reads_number p.dirX).once.bind_pure <| .cons (reads_number p.dirY).once.bind_pure .nil

theorem reads (p : StartPose) : Reads read p.toJson p := by
  intro level gap rest hgap _
  obtain ⟨body, hbody, hmembers⟩ := p.collects_members.object level rest
  rw [toJson, hbody, read, bind_ok (next?_append hgap rfl)]
  refine (bind_ok skip_cons).trans ?_
  refine (bind_ok hmembers).trans ?_
  have hcomplete : (liftM p.draft.complete : Json.Reader StartPose) ('}' :: rest) =
      .ok (p, '}' :: rest) := by
    rw [p.complete_draft]
    rfl
  refine (bind_ok hcomplete).trans ?_
  exact bind_ok (close_cons rfl)

end StartPose

namespace Settings

variable (s : Settings)

/-- The draft that the members of settings leave. -/
def draft : Draft where
  version := some s.version.toNat
  maxSteps := some s.maxSteps.toNat
  maxStack := some s.maxStack.toNat
  start := some s.start

theorem complete_draft : s.draft.complete = s := by
  rw [draft, Draft.complete]
  simp

theorem reads_word32 (n : UInt32) : Reads word32 (.int n.toNat) n.toNat :=
  reads_integer (Int.natCast_nonneg _) (Int.le_sub_one_of_lt (Int.ofNat_lt.mpr n.toNat_lt)) (by decide)
    (by decide)

theorem reads_word64 (n : UInt64) : Reads word64 (.int n.toNat) n.toNat :=
  reads_integer (Int.natCast_nonneg _) (Int.le_sub_one_of_lt (Int.ofNat_lt.mpr n.toNat_lt)) (by decide)
    (by decide)

theorem reads_start (start : Option StartPose) :
    Reads (optional StartPose.read) ((start.map StartPose.toJson).getD .null) start := by
  cases start with
  | none => exact reads_null
  | some p => exact p.reads.optional

theorem collects_members :
    Collects member {} [("version", .int s.version.toNat), ("max_steps", .int s.maxSteps.toNat),
      ("max_stack", .int s.maxStack.toNat), ("start", (s.start.map StartPose.toJson).getD .null)] s.draft :=
  .cons (reads_word32 s.version).once.bind_pure <| .cons (reads_word64 s.maxSteps).once.bind_pure <|
    .cons (reads_word64 s.maxStack).once.bind_pure <| .cons (reads_start s.start).once.bind_pure .nil

theorem reads : Reads read s.toJson s := by
  intro level gap rest hgap _
  obtain ⟨body, hbody, hmembers⟩ := s.collects_members.object level rest
  rw [toJson, hbody, read, bind_ok (next?_append hgap rfl)]
  refine (bind_ok skip_cons).trans ?_
  refine (bind_ok hmembers).trans ?_
  refine (bind_ok (close_cons rfl)).trans ?_
  rw [s.complete_draft]
  rfl

/-- Settings are read back from their document. -/
theorem ofText_pretty : Settings.ofText s.toJson.pretty = .ok s :=
  s.reads.document

end Settings

end Labyrinth
