import Packetio.Dpdk.TxQueueFailure
import Packetio.Mlx5.QueueFailure

/-! What a transmit queue still does once Err has reported it failed, for both backends
that put several rings behind one queue. -/
namespace Packetio

/-- From a failure on, in every run and for any number of rings: Err goes on reporting it,
and a ring that failed stays failed. Alloc, Transmit and TransmitOffload take nothing as
long as the ring of the cursor is one that failed, and otherwise take what they would have
without the failure. SendFunc of mlx5 takes nothing at all, that of dpdk nothing on a ring
that failed. Complete and Reclaim return what they would have without the failure. -/
theorem failed_queues (k : Nat) :
    (∀ q q' : Mlx5.TxQueue, q.failedInfo ≠ none → Mlx5.TxQueue.Later k q q' → q'.failedInfo ≠ none ∧
      (∀ (j : Nat) r info, q.rings[j]? = some r → r.failed = some info →
        ∃ r', q'.rings[j]? = some r' ∧ r'.failed = some info) ∧ (∀ r, q'.rings[q'.next]? = some r →
        (∀ n, (q'.alloc n).map Prod.snd =
          if r.failed.isSome then some [] else (q'.healed.alloc n).map Prod.snd) ∧
        ∀ descs, (q'.transmit descs).map Prod.snd =
          if r.failed.isSome then some 0 else (q'.healed.transmit descs).map Prod.snd) ∧
      (∃ info, ∀ count build, q'.sendFunc count build = some (q',.error (.queueFailed info))) ∧
      (∀ max out, (q'.reclaim max out).2 = (q'.healed.reclaim max out).2) ∧
      ∀ max, (q'.complete max).map Prod.snd = (q'.healed.complete max).map Prod.snd) ∧
    ∀ q q' : Dpdk.TxQueue, q.err ≠ none → Dpdk.TxQueue.Later k q q' → q'.err ≠ none ∧
      (∀ (j : Nat) x d, q.port.sides[j]? = some x → x.q.base.dead = some d →
        ∃ x', q'.port.sides[j]? = some x' ∧ x'.q.base.dead = some d) ∧
      (∀ t, q'.ring q'.next = some t → (∀ n, (q'.alloc k n).map Prod.snd =
          if t.dead.isSome then some [] else (q'.healed.alloc k n).map Prod.snd) ∧
        (∀ descs sent, (q'.transmit k descs sent).map Prod.snd =
          if t.dead.isSome then some 0 else (q'.healed.transmit k descs sent).map Prod.snd) ∧
        (∀ descs offs sent, (q'.transmitOffload k descs offs sent).map Prod.snd =
          if t.dead.isSome then some 0
          else (q'.healed.transmitOffload k descs offs sent).map Prod.snd) ∧
        (t.dead.isSome → ∀ count build sent q'' res,
          q'.sendFunc k count build sent = some (q'',res) → res = .ok 0)) ∧
      (∀ max out, (q'.reclaim k max out).map Prod.snd =
      (q'.healed.reclaim k max out).map Prod.snd) ∧
      ∀ max, (q'.complete k max).map Prod.snd = (q'.healed.complete k max).map Prod.snd := by
  constructor
  · intro q q' hq hrun
    have hlatch := Mlx5.TxQueue.Later.latched hq hrun
    have hq' := hlatch.findSome hq
    obtain ⟨info,hinfo⟩ := Option.ne_none_iff_exists'.mp hq'
    exact ⟨hq',fun j r info hr hf => hlatch.get hr hf,
      fun r hr => ⟨Mlx5.TxQueue.alloc_eq hr,Mlx5.TxQueue.transmit_eq hr⟩,
      ⟨info,Mlx5.TxQueue.sendFunc_failed hinfo⟩,Mlx5.reclaim_healed q',Mlx5.queueComplete_healed q'⟩
  · intro q q' hq hrun
    have hkept := Dpdk.TxQueue.Later.kept hrun
    refine ⟨hkept.err hq,fun j x d hx hd => hkept.sides.get hx hd,fun t ht => ?_,
      q'.reclaim_healed k,q'.complete_healed k⟩
    exact ⟨Dpdk.TxQueue.alloc_eq ht,Dpdk.TxQueue.transmit_eq ht,Dpdk.TxQueue.transmitOffload_eq ht,
      fun hd count build sent q'' res h => Dpdk.TxQueue.sendFunc_dead ht hd h⟩

theorem failed_queues_two : Mlx5.pairFailed.failedInfo ≠ none ∧ Dpdk.twoDead.err ≠ none ∧
    (∃ info, Mlx5.pairFailed.sendFunc 1 (fun _ _ => 64) =
      some (Mlx5.pairFailed,.error (.queueFailed info))) ∧
    (Dpdk.twoDead.alloc 9 1).map Prod.snd = some [] ∧
    (Dpdk.twoDead.transmit 9 [⟨832,64,0⟩] 1).map Prod.snd = some 0 := by
  have hmlx : Mlx5.pairFailed.failedInfo≠none := by decide
  have hdpdk : Dpdk.twoDead.err≠none := by decide
  obtain ⟨t,ht⟩ : ∃ t, Dpdk.twoDead.ring Dpdk.twoDead.next=some t := ⟨_,rfl⟩
  obtain ⟨-,-,-,⟨info,hsend⟩,-⟩ := (failed_queues 7).1 _ _ hmlx .refl
  obtain ⟨-,-,hcalls,-⟩ := (failed_queues 9).2 _ _ hdpdk .refl
  obtain ⟨halloc,htransmit,-⟩ := hcalls t ht
  have hdead : t.dead.isSome=true := by
    cases ht
    decide
  exact ⟨hmlx,hdpdk,⟨info,hsend 1 _⟩,by rw [halloc,if_pos hdead],by rw [htransmit,if_pos hdead]⟩

theorem failed_queues_accept : (∃ q, Mlx5.newTxQueue true ⟨Mlx5.Ring.tinyTx.region,127⟩ 0 2 128
        [Mlx5.pairTxConfig,Mlx5.pairTxConfig] = .ok q ∧ Mlx5.TxQueue.Later 7 q Mlx5.pairFailed) ∧
    Mlx5.pairFailed.failedInfo ≠ none ∧ (Mlx5.pairFailed.alloc 1).map Prod.snd = some [⟨0,0,0⟩] ∧
    (Mlx5.pairFailed.transmit [⟨0,64,0⟩]).map Prod.snd = some 1 ∧
    Dpdk.twoRings.Opened 9 ∧ Dpdk.TxQueue.Later 9 Dpdk.twoRings Dpdk.twoDead ∧
    Dpdk.twoDead.err ≠ none ∧ Dpdk.TxQueue.Later 9 Dpdk.twoDead Dpdk.twoOn ∧
    (Dpdk.twoOn.alloc 9 1).map Prod.snd = some [⟨1344,0,0⟩] ∧
    (Dpdk.twoOn.transmit 9 [⟨1344,64,0⟩] 1).map Prod.snd = some 1 := by
  refine ⟨⟨Mlx5.pairRings,?_,Mlx5.pairFailed_later⟩,by decide,by decide,by decide,
    Dpdk.twoRings_opened,Dpdk.twoDead_later,by decide,Dpdk.twoOn_later,by decide,by decide⟩
  rfl

end Packetio
