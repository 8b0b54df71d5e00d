import Packetio.Dpdk.Ring

/-! The shared ring from both sides (queue/ring.go, eal/shim.c): whatever Go and the mempool do with
it, in whatever order, it is a queue of at most its capacity. -/
namespace Packetio.Dpdk.Ring
open List

def pushOne (r : Ring) (addr : UInt64) : Ring × Bool :=
  if r.room=0 then (r,false) else (r.put addr,true)

/-- Into a `dst` of that length; `none` is the run-time panic of an index past it. -/
def popBulk (r : Ring) (dst : Nat) (n : Int) : Option (Ring × Bool × List UInt64) :=
  if r.len<n then some (r,false,[])
  else if dst<n then none
  else
    let x := nexts n.toNat r
    some (x.1,true,x.2)

inductive Op where
  | push (addrs : List UInt64)
  | pushOne (addr : UInt64)
  | pop (n : Int)
  | popBulk (dst : Nat) (n : Int)
  | enqueue (objs : List UInt64)
  | dequeue (n : UInt32)

structure Answer where
  taken : Int := 0
  ok : Bool := true
  given : List UInt64 := []
  deriving DecidableEq

def act (r : Ring) : Op → Option (Ring × Answer)
  | .push addrs =>
    let x := r.push addrs
    some (x.1,{ taken := x.2 })
  | .pushOne addr =>
    let x := r.pushOne addr
    some (x.1,{ ok := x.2 })
  | .pop n =>
    let x := r.pop n
    some (x.1,{ given := x.2 })
  | .popBulk dst n => (r.popBulk dst n).map fun x => (x.1,{ ok := x.2.1, given := x.2.2 })
  | .enqueue objs =>
    let x := r.enqueue objs
    some (x.1,{ taken := objs.length-x.2, ok := x.2=0 })
  | .dequeue n => match r.dequeue n with
    | none => some (r,{ ok := false })
    | some (r,addrs) => some (r,{ given := addrs })

/-- The same operations on a queue that holds at most `cap` addresses. -/
def queue (cap : Nat) (q : List UInt64) : Op → Option (List UInt64 × Answer)
  | .push addrs =>
    let n := min addrs.length (cap-q.length)
    some (q++addrs.take n,{ taken := n })
  | .pushOne addr => some (if q.length<cap then (q++[addr],{}) else (q,{ ok := false }))
  | .pop n => some (q.drop n.toNat,{ given := q.take n.toNat })
  | .popBulk dst n =>
    if q.length<n then some (q,{ ok := false })
    else if dst<n then none
    else some (q.drop n.toNat,{ given := q.take n.toNat })
  | .enqueue objs =>
    let n := min objs.length (cap-q.length)
    some (q++objs.take n,{ taken := n, ok := n=objs.length })
  | .dequeue n => some (if q.length<n.toNat then (q,{ ok := false })
      else (q.drop n.toNat,{ given := q.take n.toNat }))

def runs {σ : Type} (step : σ → Op → Option (σ × Answer)) : σ → List Op → Option (σ × List Answer)
  | s, [] => some (s,[])
  | s, op::ops => do
    let x ← step s op
    let y ← runs step x.1 ops
    some (y.1,x.2::y.2)

section
variable {r : Ring}

theorem first_of_append {q xs ys : List UInt64} {n : Nat} (h : q=xs++ys)
    (hn : xs.length=min n q.length) : xs=q.take n ∧ ys=q.drop n := by
  have htake : q.take n=q.take xs.length := by rw [hn,← take_eq_take_min]
  have hdrop : q.drop n=q.drop xs.length := by rw [hn,← drop_eq_drop_min]
  rw [htake,hdrop,h,take_left,drop_left]
  exact ⟨rfl,rfl⟩

/-- One operation, on the ring and on the queue of what it holds. -/
theorem Sized.act (h : r.Sized) (op : Op) : (r.act op=none ∧ queue r.cap r.items op=none) ∨
    ∃ r' a, r.act op=some (r',a) ∧ r'.Sized ∧ r'.cap=r.cap ∧
      queue r.cap r.items op=some (r'.items,a) := by
  have hle := h.le
  have hlen := r.items_length
  cases op with
  | push addrs =>
    obtain ⟨n,hn,hmin,hs,hc,hitems⟩ := h.push addrs
    exact .inr ⟨_,_,rfl,hs,hc,by rw [queue,hlen,← hmin,← hitems,hn]⟩
  | pushOne addr =>
    rw [Ring.act,Ring.pushOne,queue,hlen,room]
    by_cases hfull : r.len<r.cap
    · obtain ⟨hs,hitems⟩ := h.put hfull addr
      rw [if_neg (by omega),if_pos hfull,← hitems]
      exact .inr ⟨_,_,rfl,hs,rfl,rfl⟩
    · rw [if_pos (by omega),if_neg hfull]
      exact .inr ⟨_,_,rfl,h,rfl,rfl⟩
  | pop n =>
    obtain ⟨hs,hc,hitems,hn⟩ := h.pop n
    obtain ⟨hgiven,hrest⟩ := first_of_append hitems (hlen ▸ hn)
    exact .inr ⟨_,_,rfl,hs,hc,by rw [queue,← hgiven,← hrest]⟩
  | popBulk dst n =>
    rw [Ring.act,Ring.popBulk,queue,hlen]
    split
    case isTrue => exact .inr ⟨_,_,rfl,h,rfl,rfl⟩
    rename_i hn
    split
    case isTrue => exact .inl ⟨rfl,rfl⟩
    obtain ⟨hs,hc,hitems,hk⟩ := h.nexts n.toNat (by omega)
    obtain ⟨hgiven,hrest⟩ := first_of_append (n := n.toNat) hitems (by omega)
    exact .inr ⟨_,_,rfl,hs,hc,by rw [← hgiven,← hrest]⟩
  | enqueue objs =>
    have hroom : r.len+(objs.take (r.cap-r.len)).length≤r.cap := by rw [length_take]; omega
    obtain ⟨hs,hc,hitems⟩ := h.puts _ hroom
    have hn : objs.take (min objs.length (r.cap-r.len))=objs.take (r.cap-r.len) := by
      rw [min_comm,← take_eq_take_min]
    have htaken : (objs.length : Int)-(objs.length-(r.cap-r.len) : Nat) =
        (min objs.length (r.cap-r.len) : Nat) := by omega
    have hall : objs.length-(r.cap-r.len)=0 ↔ min objs.length (r.cap-r.len)=objs.length := by omega
    rw [Ring.act,h.enqueue_eq,queue,hlen,hn,← hitems]
    exact .inr ⟨_,_,rfl,hs,hc,by simp [htaken,hall]⟩
  | dequeue n =>
    have hshort : r.tail-r.head<n ↔ r.len<n.toNat := UInt32.lt_iff_toNat_lt
    rw [Ring.act,Ring.dequeue,queue,hlen]
    by_cases hn : r.len<n.toNat
    · rw [if_pos hn,if_pos (hshort.mpr hn)]
      exact .inr ⟨_,_,rfl,h,rfl,rfl⟩
    obtain ⟨hs,hc,hitems,hk⟩ := h.nexts n.toNat (by omega)
    obtain ⟨hgiven,hrest⟩ := first_of_append (n := n.toNat) hitems (by omega)
    rw [if_neg hn,if_neg (mt hshort.mp hn),← hgiven,← hrest]
    exact .inr ⟨_,_,rfl,hs,hc,rfl⟩

theorem Sized.runs (h : r.Sized) (ops : List Op) :
    (Ring.runs Ring.act r ops).map (fun x => (x.1.items,x.2))=
      Ring.runs (queue r.cap) r.items ops := by
  induction ops generalizing r with
  | nil => rfl
  | cons op ops ih =>
    rw [Ring.runs,Ring.runs]
    obtain ⟨hact,hq⟩ | ⟨r',a,hact,hs,hc,hq⟩ := h.act op
    · rw [hact,hq]
      rfl
    have hrest := ih hs
    rw [hc] at hrest
    simp only [hact,hq,Option.bind_eq_bind,Option.bind_some,← hrest]
    cases Ring.runs Ring.act r' ops <;> rfl

end

/-- From equal indices, wherever they start, any run of the Go and the mempool operations is the run
of a bounded queue: the same answers, and the same addresses left. -/
theorem newRingOver_fifo {buf : Nat → UInt64} {k : Nat} {index : UInt32} {r : Ring} (hk : k<32)
    (h : newRingOver buf (2^k) (some index) (some index) = .ok r) (ops : List Op) :
    (runs act r ops).map (fun x => (x.1.items,x.2))=runs (queue (2^k)) [] ops := by
  obtain ⟨hs,hc,hitems⟩ := newRingOver_sized (Nat.pow_lt_pow_right (by decide) hk) h
  rw [hs.runs,hc,hitems]

/-- A ring of two that starts at the last index: the third address is refused on both sides. -/
theorem newRingOver_fifo_wraps : ((runs act ⟨fun _ => 0,2,1,4294967295,4294967295⟩
      [.push [7,8,9],.enqueue [5],.dequeue 3,.pop 1,.pushOne 6,.popBulk 2 2]).map fun x =>
        (x.1.items,x.2)) = some ([],[{ taken := 2 },{ ok := false },{ ok := false },
          { given := [7] },{},{ given := [8,6] }]) :=
  newRingOver_fifo (k := 1) (by decide) rfl _

theorem puts_len (as : List UInt64) (r : Ring) :
    (as.foldl put r).len=(r.tail+UInt32.ofNat as.length-r.head).toNat := by
  induction as generalizing r with
  | nil => rw [length_nil]; exact congrArg (fun t => (t-r.head).toNat) (UInt32.add_zero _).symm
  | cons a as ih =>
    rw [foldl_cons,ih,length_cons,Nat.add_comm,UInt32.ofNat_add,← UInt32.add_assoc]
    rfl

theorem push_all_lost {r : Ring} {as : List UInt64} (hcap : r.cap=2^32) (hlen : as.length=2^32)
    (hempty : r.tail=r.head) : (r.push as).2=2^32 ∧ (r.push as).1.items = [] := by
  have hzero : r.len=0 := by rw [len,hempty,UInt32.sub_self]; rfl
  have hn : (if (as.length : Int) > r.room then r.room else as.length) = 2^32 := by
    rw [room]
    split <;> omega
  refine ⟨hn,?_⟩
  have hgone : (r.push as).1.len=0 := by
    rw [push,hn,take_of_length_le (by omega),puts_len,hlen,hempty]
    change (r.head+0-r.head).toNat=0
    rw [UInt32.add_zero,UInt32.sub_self]
    rfl
  rw [items,hgone]
  rfl

/-- A ring of 2^32 is accepted too, but full it looks empty: all it took is lost. -/
theorem newRingOver_loses : ∃ r : Ring,
    newRingOver (fun _ => 0) (2^32) (some 0) (some 0) = .ok r ∧
      (r.push (replicate (2^32) 5)).2=2^32 ∧ (r.push (replicate (2^32) 5)).1.items = [] :=
  ⟨_,rfl,push_all_lost rfl length_replicate rfl⟩

end Packetio.Dpdk.Ring
