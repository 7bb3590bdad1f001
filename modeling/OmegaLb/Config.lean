import OmegaLb.GoRuntime

/-! The ring section of the configuration: what Load fills in, what the daemon
overrides at stage 1. No value of the file is rejected. -/
namespace OmegaLb.Config

structure RingConfig (F : Type) where
  vnodesPerServer : Int
  boundedLoadBeta : F
  adjustEveryN : Int
  adjustThreshold : F
  slowStartBatchSize : Int
  slowStartMaxErrorRatePct : Int

structure RingSection (F : Type) where
  vnodesPerServer : Option Int := none
  boundedLoadBeta : Option F := none
  adjustEveryN : Option Int := none
  adjustThreshold : Option F := none
  slowStartBatchSize : Option Int := none
  slowStartMaxErrorRatePct : Option Int := none

variable {F : Type} [GoFloat F]

def load (file : RingSection F) : RingConfig F where
  vnodesPerServer := file.vnodesPerServer.getD 150
  boundedLoadBeta := file.boundedLoadBeta.getD (GoFloat.lit 1.25)
  adjustEveryN := file.adjustEveryN.getD 100
  adjustThreshold := file.adjustThreshold.getD (GoFloat.lit 1.30)
  slowStartBatchSize := file.slowStartBatchSize.getD 0
  slowStartMaxErrorRatePct := file.slowStartMaxErrorRatePct.getD 0

def clampStage (stage : Int) : Int :=
  let stage := if stage < 1 then 1 else stage
  if stage > 5 then 5 else stage

/-- daemon.New: below stage 2 every backend gets one vnode, and AdjustEveryN = 0
is meant to disable the adjustment. -/
def daemonRing (stage : Int) (cfg : RingConfig F) : RingConfig F :=
  if clampStage stage < 2 then { cfg with vnodesPerServer := 1, adjustEveryN := 0 } else cfg

theorem everyConfigAccepted (cfg : RingConfig F) (stage : Int) (live : 2 ≤ stage) :
    ∃ file : RingSection F, daemonRing stage (load file) = cfg := by
  have above : ¬ clampStage stage < 2 := by
    unfold clampStage
    dsimp only
    split <;> split <;> omega
  refine ⟨⟨some cfg.vnodesPerServer, some cfg.boundedLoadBeta, some cfg.adjustEveryN,
    some cfg.adjustThreshold, some cfg.slowStartBatchSize, some cfg.slowStartMaxErrorRatePct⟩, ?_⟩
  simp [daemonRing, above, load]

end OmegaLb.Config
