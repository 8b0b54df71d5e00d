import Mathlib.Algebra.Group.Nat.Defs

/-! The clock of a receive queue (internal/clock): the ticks of a completion become
nanoseconds, and the wraps of a counter narrower than 64 bits are carried. -/
namespace Packetio.Mlx5.Clock

structure Info where
  mult : UInt32
  shift : UInt32
  mask : UInt64
  deriving DecidableEq, Repr

def Info.ok (i : Info) : Bool := i.mult != 0 && i.mask != 0

structure Counter where
  info : Info
  last : UInt64 := 0
  wraps : UInt64 := 0
  begun : Bool := false
  deriving DecidableEq, Repr

def shl (x : UInt64) (n : UInt32) : UInt64 := if n<64 then x <<< n.toUInt64 else 0
def shr (x : UInt64) (n : UInt32) : UInt64 := if n<64 then x >>> n.toUInt64 else 0

def Counter.ns (c : Counter) (ticks : UInt64) : Counter × UInt64 :=
  let raw := ticks &&& c.info.mask
  let wraps := if c.begun && raw<c.last && c.last-raw > c.info.mask/2 then c.wraps+1 else c.wraps
  -- the product is 128 bits wide
  let prod := (wraps*(c.info.mask+1)+raw).toNat*c.info.mult.toNat
  let hi := UInt64.ofNat (prod/2^64)
  let lo := UInt64.ofNat prod
  ({ c with last := raw, wraps := wraps, begun := true },
    if c.info.shift=0 then lo else shl hi (64-c.info.shift) ||| shr lo c.info.shift)

def Counter.nsAll (c : Counter) : List UInt64 → Counter × List UInt64
  | [] => (c,[])
  | t::ts =>
    let r := (c.ns t).1.nsAll ts
    (r.1,(c.ns t).2::r.2)

end Packetio.Mlx5.Clock
