import OmegaLb.RingInvariant

/-! What the operations that move vnodes write of a backend: its count, which stays positive
once it is, and nothing else. -/
namespace OmegaLb.RingWrites
open RingManager RingInvariant
open GoMap (Related)

variable {F : Type}

structure Recounted (b c : Backend) : Prop where
  rest : c = { b with vnodeCount := c.vnodeCount }
  routable : 1 ≤ b.vnodeCount → 1 ≤ c.vnodeCount

theorem recountedRefl (b : Backend) : Recounted b b := ⟨rfl, id⟩

theorem recountedTrans (b c d : Backend) (first : Recounted b c) (second : Recounted c d) :
    Recounted b d := by
  refine ⟨?_, fun positive => second.routable (first.routable positive)⟩
  rw [second.rest, first.rest]

theorem recountedLoad {b c : Backend} (recounted : Recounted b c) : c.activeReqs = b.activeReqs := by
  rw [recounted.rest]

theorem setVnodeCountWrites (rt : Runtime) (m : Manager F) (id : UInt32) (count : Int) :
    Related Recounted m.backends (m.setVnodeCount rt id count).backends := by
  unfold Manager.setVnodeCount Manager.setField
  split
  · refine GoMap.relatedModify recountedRefl m.backends fun b _ => ⟨rfl, fun _ => ?_⟩
    dsimp only
    split <;> omega
  · exact GoMap.relatedRefl recountedRefl m.backends

theorem hottestRegistered {m : Manager F} (sound : Sound m) (rt : Runtime) {hottest : Backend}
    (found : ((rt.order (GoMap.values m.backends)).filter Backend.adjustable).foldl hotter none =
      some hottest) : m.backends.lookup hottest.id = some hottest := by
  rw [hotterKeeps] at found
  have member := (FirstLeast.keptLeast _ none found).1.resolve_right (by simp)
  obtain ⟨k, registered⟩ :=
    GoMap.memValues.mp ((rt.orderPerm _).mem_iff.mp (List.mem_filter.mp member).1)
  rwa [sound.keyed k hottest registered]

variable [GoFloat F]

theorem adjustWrites (rt : Runtime) {m : Manager F} (sound : Sound m) :
    Related Recounted m.backends (m.adjust rt).backends := by
  have unchanged := GoMap.relatedRefl recountedRefl m.backends
  unfold Manager.adjust
  dsimp only
  split
  · rename_i hottest coolest foundHot _
    split
    · exact unchanged
    · split
      · split
        · rename_i several
          refine GoMap.relatedTrans recountedTrans (GoMap.relatedModify recountedRefl m.backends ?_)
            (GoMap.relatedModify recountedRefl _ ?_)
          · intro b found
            cases found.symm.trans (hottestRegistered sound rt foundHot)
            exact ⟨rfl, fun _ => by simp only [Backend.addVnodes]; omega⟩
          · intro b _
            exact ⟨rfl, fun positive => by simp only [Backend.addVnodes]; omega⟩
        · exact unchanged
      · exact unchanged
  · exact unchanged

theorem slowStartTickWrites (rt : Runtime) (m : Manager F) (errorRate : Option (UInt32 → F)) :
    Related Recounted m.backends (m.slowStartTick rt errorRate).backends :=
  slowStartTickKeeps (P := fun n => Related Recounted m.backends n.backends) rt errorRate
    (fun _ _ held => held)
    (fun n id count held => GoMap.relatedTrans recountedTrans held (setVnodeCountWrites rt n id count))
    (GoMap.relatedRefl recountedRefl m.backends)

end OmegaLb.RingWrites
