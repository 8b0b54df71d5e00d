import Packetio.Netstack.Packet

/-! Segmentation in software (gso.go): one packet of up to 64 KiB becomes frames of one
segment each. `none` stands for a run-time panic. -/
namespace Packetio.Netstack
open Lib List

def vlanHdrLen : Nat := 18
def minFrameLen : Nat := 60
def maxHeaderTemplate : Nat := vlanHdrLen+ipMaximumHeaderSize+tcpHeaderMaximumSize

def segments (p : PacketBuffer) : Nat :=
  if !p.gso.segmented || p.gso.mss == 0 then 1
  else
    let n := p.data.length
    let mss := p.gso.mss.toNat
    if n ≤ mss then 1 else (n+mss-1)/mss

def needsChecksum (p : PacketBuffer) : Bool :=
  p.gso.segmented && p.gso.needsCsum && p.isIPv4 && p.isTCP

def finishTCPChecksum (frame : List UInt8) (linkLen : Nat) : Option (List UInt8) :=
  if frame.length<linkLen+ipTotalLenOffset+2 then none
  else
    let ip := frame.drop linkLen
    let ipLen := ipHeaderLength ip
    let start := linkLen+ipLen
    if ipTotalLength ip < ipLen+tcpMinimumSize ∨ start+(ipTotalLength ip-ipLen) > frame.length then
      some frame
    else do
      let tcpLen := ipTotalLength ip-ipLen
      let frame ← put frame (start+tcpChecksumOffset) [0,0]
      let xsum := pseudoHeaderChecksum tcpProtocolNumber (ipSourceAddress ip)
        (ipDestinationAddress ip) (UInt16.ofNat tcpLen)
      put frame (start+tcpChecksumOffset)
        (be16 (~~~checksum ((frame.drop start).take tcpLen) xsum))

/-! The payload, across views -/

structure PayloadCursor where
  views : List (List UInt8)
  off : Nat
  deriving DecidableEq, Repr

namespace PayloadCursor

/-- The views from the cursor on, after `n` more bytes. -/
def skip : List (List UInt8) → Nat → Nat → PayloadCursor
  | [], off, _ => ⟨[],off⟩
  | v::vs, off, n =>
    if n=0 then ⟨v::vs,off⟩
    else if n<v.length-off then ⟨v::vs,off+n⟩
    else skip vs 0 (n-(v.length-off))

def new (p : PacketBuffer) : PayloadCursor := skip p.views 0 (p.headerOffset+p.headerSize)

/-- Up to `n` bytes from the cursor on, and the cursor behind them. -/
def copyTo : List (List UInt8) → Nat → Nat → List UInt8 × PayloadCursor
  | [], off, _ => ([],⟨[],off⟩)
  | v::vs, off, n =>
    if n=0 then ([],⟨v::vs,off⟩)
    else
      let bytes := (v.drop off).take n
      let off := off+bytes.length
      if off ≥ v.length then
        let rest := copyTo vs 0 (n-bytes.length)
        (bytes++rest.1,rest.2)
      else (bytes,⟨v::vs,off⟩)

def remaining (c : PayloadCursor) : List UInt8 :=
  match c.views with
  | [] => []
  | v::vs => v.drop c.off++vs.flatten

theorem remaining_cons (v : List UInt8) (vs : List (List UInt8)) (off : Nat) :
    remaining ⟨v::vs,off⟩=v.drop off++vs.flatten := rfl

section
variable (vs : List (List UInt8))

theorem remaining_start : remaining ⟨vs,0⟩=vs.flatten := by
  cases vs with
  | nil => rfl
  | cons v vs => rw [remaining_cons,drop_zero,flatten_cons]

theorem skip_remaining (off n : Nat) : (skip vs off n).remaining=(remaining ⟨vs,off⟩).drop n := by
  induction vs generalizing off n with
  | nil => simp [skip,remaining]
  | cons v vs ih =>
    have hlen : (v.drop off).length=v.length-off := length_drop
    rw [skip]
    split
    case isTrue h0 => rw [h0,drop_zero]
    rename_i h0
    split
    case isTrue hlt =>
      rw [remaining_cons,remaining_cons,drop_append_of_le_length (by omega),drop_drop]
    rename_i hge
    have hout : (v.drop off).drop n = [] := drop_eq_nil_of_le (by omega)
    rw [ih,remaining_start,remaining_cons,drop_append,hout,nil_append,hlen]

theorem copyTo_eq (off n : Nat) : (copyTo vs off n).1=(remaining ⟨vs,off⟩).take n ∧
      (copyTo vs off n).2.remaining=(remaining ⟨vs,off⟩).drop n := by
  induction vs generalizing off n with
  | nil => simp [copyTo,remaining]
  | cons v vs ih =>
    have hlen : (v.drop off).length=v.length-off := length_drop
    have htake : ((v.drop off).take n).length=min n (v.length-off) := by rw [length_take,hlen]
    simp only [copyTo]
    split
    case isTrue h0 => simp [h0]
    rename_i h0
    split
    case isTrue hge =>
      have hall : (v.drop off).take n=v.drop off := take_of_length_le (by omega)
      have hout : (v.drop off).drop n = [] := drop_eq_nil_of_le (by omega)
      obtain ⟨hbytes,hrest⟩ := ih 0 (n-(v.length-off))
      simp only [hall,hlen,hbytes,hrest]
      rw [remaining_start,remaining_cons,take_append,drop_append,hall,hlen,hout,nil_append]
      exact ⟨rfl,rfl⟩
    case isFalse hlt =>
      have hn : ((v.drop off).take n).length=n := by omega
      simp only [remaining_cons,hn]
      rw [take_append_of_le_length (by omega),drop_append_of_le_length (by omega),
        drop_drop]
      exact ⟨rfl,rfl⟩

end

theorem new_remaining (p : PacketBuffer) : (new p).remaining=p.data := by
  rw [new,skip_remaining,remaining_start]
  rfl

end PayloadCursor

/-! The segmenter -/

structure Segmenter where
  tmpl : List UInt8
  hdrLen : Nat
  linkLen : Nat
  ipLen : Nat
  tcpLen : Nat
  mss : Nat
  left : Nat
  seg : Nat
  nseg : Nat
  seq0 : UInt32
  flags : UInt8
  src : List UInt8
  dst : List UInt8
  cur : PayloadCursor
  ipCsumBase : UInt16
  deriving DecidableEq, Repr

namespace Segmenter

def zero : Segmenter :=
  ⟨List.replicate maxHeaderTemplate 0,0,0,0,0,0,0,0,0,0,0,[0,0,0,0],[0,0,0,0],⟨[],0⟩,0⟩

/-- `copy(b, xs)`: as much as there is room for. -/
def copy (b xs : List UInt8) : List UInt8 := patch b 0 (xs.take b.length)

def init (s : Segmenter) (p : PacketBuffer) (linkLen : Nat) : Option Segmenter :=
  let link := p.linkHeader
  let ip := p.networkHeader
  let tcp := p.transportHeader
  if link.length<linkLen ∨ ip.length < ipMinimumSize ∨ tcp.length≤tcpFlagsOffset then none
  else do
    let tmpl := copy s.tmpl (link.take linkLen++ip++tcp)
    if tmpl.length<linkLen+ip.length then none
    else
      let tmpl ← put tmpl (linkLen+ipTotalLenOffset) [0,0]
      let tmpl ← put tmpl (linkLen+ipChecksumOffset) [0,0]
      let tip := tmpl.drop linkLen
      if tip.length < ipHeaderLength tip then none
      else
        some { tmpl, linkLen, ipLen := ip.length, tcpLen := tcp.length
               hdrLen := linkLen+ip.length+tcp.length
               mss := p.gso.mss.toNat, left := p.data.length, seg := 0, nseg := segments p
               seq0 := get32 tcp tcpSeqOffset, flags := tcp.getD tcpFlagsOffset 0
               src := ipSourceAddress ip, dst := ipDestinationAddress ip
               cur := PayloadCursor.new p
               ipCsumBase := checksum (tip.take (ipHeaderLength tip)) 0 }

def setIPLength (s : Segmenter) (frame : List UInt8) (total : Nat) : Option (List UInt8) := do
  let frame ← put frame (s.linkLen+ipTotalLenOffset) (be16 (UInt16.ofNat total))
  put frame (s.linkLen+ipChecksumOffset) (be16 (~~~combine s.ipCsumBase (UInt16.ofNat total)))

def done (s : Segmenter) : Bool := s.nseg ≤ s.seg

def nextFlags (s : Segmenter) : UInt8 :=
  if s.seg+1=s.nseg then s.flags else s.flags &&& ~~~(tcpFlagPsh ||| tcpFlagFin)

/-- The headers of the next segment, for `n` bytes of payload. -/
def headers (s : Segmenter) (frame : List UInt8) (n : Nat) : Option (List UInt8) := do
  if s.tmpl.length<s.hdrLen then none
  else
    let frame := copy frame (s.tmpl.take s.hdrLen)
    let frame ← s.setIPLength frame (s.ipLen+s.tcpLen+n)
    let tcp := s.linkLen+s.ipLen
    let frame ← put frame (tcp+tcpSeqOffset) (be32 (s.seq0+UInt32.ofNat (s.seg*s.mss)))
    put frame (tcp+tcpFlagsOffset) [s.nextFlags]

/-- The TCP checksum of a frame with `got` bytes of payload. -/
def finish (s : Segmenter) (frame : List UInt8) (got : Nat) : Option (List UInt8) := do
  let tcp := s.linkLen+s.ipLen
  let frame ← put frame (tcp+tcpChecksumOffset) [0,0]
  let xsum := pseudoHeaderChecksum tcpProtocolNumber s.src s.dst (UInt16.ofNat (s.tcpLen+got))
  put frame (tcp+tcpChecksumOffset)
    (be16 (~~~checksum ((frame.take (s.hdrLen+got)).drop tcp) xsum))

/-- The next segment, written into `frame`, and its length. -/
def next (s : Segmenter) (frame : List UInt8) : Option (Segmenter × List UInt8 × Nat) := do
  let n := min s.mss s.left
  let frame ← s.headers frame n
  if frame.length<s.hdrLen+n then none
  else
    let (bytes,cur) := PayloadCursor.copyTo s.cur.views s.cur.off n
    let frame ← put frame s.hdrLen bytes
    let got := bytes.length
    let total := s.hdrLen+got
    -- the payload may run out early: the length is then of what there is
    let frame ← if got≠n then s.setIPLength frame (s.ipLen+s.tcpLen+got) else some frame
    let s' := { s with cur, left := if got≠n then 0 else s.left-n, seg := s.seg+1 }
    let frame ← s.finish frame got
    if total < minFrameLen then
      let frame ← put frame total (List.replicate (minFrameLen-total) 0)
      some (s',frame,minFrameLen)
    else some (s',frame,total)

def emit : Segmenter → List (List UInt8) → Option (Segmenter × List (List UInt8))
  | s, [] => some (s,[])
  | s, frame::frames =>
    if s.done then some (s,[])
    else do
      let (s,frame,length) ← s.next frame
      let (s,sent) ← s.emit frames
      some (s,frame.take length::sent)

end Segmenter

def admitPackets : List Nat → Nat → Nat × Nat
  | segs, budget => go segs budget 0 0
where
  go : List Nat → Nat → Nat → Nat → Nat × Nat
    | [], _, packets, frames => (packets,frames)
    | s::segs, budget, packets, frames =>
      if frames+s > budget then (packets,frames) else go segs budget (packets+1) (frames+s)

end Packetio.Netstack
