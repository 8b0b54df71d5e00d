import Packetio.Dpdk.Mbuf
import Packetio.Lib.Packed

/-! The fields of an mbuf one by one (the accessors of mbuf/mbuf.go), what the wide stores
put into them, and what the wide loads of receiving find. -/
namespace Packetio
open Option Nat UInt64

def Region.uint32 (b : Region) (pos : Nat) : Option UInt32 := (b.get pos 4).map UInt32.ofNat
def Region.uint16 (b : Region) (pos : Nat) : Option UInt16 := (b.get pos 2).map UInt16.ofNat

variable {b b' : Region} {n m : Nat}

theorem Region.get_part {pos v : Nat} (h : b.get pos n=some v) {j k : Nat}
    (hk : j+k≤n) : b.get (pos+j) k=some (v/256^j%256^k) := by
  rw [Region.get] at h
  split at h
  case isFalse => cases h
  rename_i hfits
  cases h
  rw [Region.get,if_pos (by omega),← Lib.leNat_part _ hk]
  simp only [Nat.add_assoc]

theorem Region.stores_uint16 {ss : List Store} (h : b.stores m ss=some b')
    (hap : ss.Pairwise Store.Apart) {off x : Nat} (hs : ⟨off,n,x⟩∈ss) {j : Nat} (hj : j+2≤n)
    {v : UInt16} (hv : x/256^j%256^2=v.toNat) : b'.uint16 (m+(off+j))=some v := by
  rw [Region.uint16,Region.stores_get h hap hs hj,hv,map_some,UInt16.ofNat_toNat]

namespace Dpdk.Mbuf
open Lib

def offBufAddr : Nat := 0
def offDataOff : Nat := 16
def offNbSegs : Nat := 20

def bufAddr (b : Region) (m : Nat) : Option UInt64 := b.uint64 (m+offBufAddr)
def dataOff (b : Region) (m : Nat) : Option UInt16 := b.uint16 (m+offDataOff)
def nbSegs (b : Region) (m : Nat) : Option UInt16 := b.uint16 (m+offNbSegs)
def olFlags (b : Region) (m : Nat) : Option UInt64 := b.uint64 (m+offOlFlags)
def pktLen (b : Region) (m : Nat) : Option UInt32 := b.uint32 (m+offPktLen)
def dataLen (b : Region) (m : Nat) : Option UInt16 := b.uint16 (m+offDataLen)
def txOffload (b : Region) (m : Nat) : Option UInt64 := b.uint64 (m+offTxOffload)

def next (b : Region) (m : Nat) : Option UInt64 := b.uint64 (m+offNext)

theorem high16 (x : Nat) : (UInt64.ofNat x >>> 32).toUInt16=UInt16.ofNat (x/256^4%256^2) := by
  have h32 : (32 : UInt64).toNat%64=32 := rfl
  rw [← UInt16.toNat_inj,UInt16.toNat_ofNat',UInt64.toNat_toUInt16,UInt64.toNat_shiftRight,
    UInt64.toNat_ofNat',h32,shiftRight_eq_div_pow]
  omega

theorem rxRead_fields (hm : m+size≤b.len) :
    ∃ f, rxRead b m=some f ∧ dataOff b m=some f.dataOff ∧ nbSegs b m=some f.nbSegs ∧
      dataLen b m=some f.dataLen ∧ olFlags b m=some f.olFlags := by
  have hload : ∀ off, off+8 ≤ size → ∃ v, b.get (m+off) 8=some v := fun off hoff =>
    ⟨_,if_pos (by omega)⟩
  obtain ⟨x,hx⟩ := hload offRearm (by decide)
  obtain ⟨y,hy⟩ := hload offPktLen (by decide)
  obtain ⟨z,hz⟩ := hload offOlFlags (by decide)
  have hoff : b.get (m+offDataOff) 2=_ := Region.get_part hx (j := 0) (k := 2) (by decide)
  have hseg : b.get (m+offNbSegs) 2=_ := Region.get_part hx (j := 4) (k := 2) (by decide)
  have hlen : b.get (m+offDataLen) 2=_ := Region.get_part hy (j := 4) (k := 2) (by decide)
  refine ⟨_,by rw [rxRead,Region.uint64,Region.uint64,Region.uint64,hx,hy,hz]; rfl,?_,?_,?_,?_⟩
  · rw [dataOff,Region.uint16,hoff,map_some,some_inj,← UInt16.toNat_inj]
    simp only [UInt16.toNat_ofNat',toNat_toUInt16,toNat_ofNat']
    omega
  · rw [nbSegs,Region.uint16,hseg,map_some,← high16]
  · rw [dataLen,Region.uint16,hlen,map_some,← high16]
  · rw [olFlags,Region.uint64,hz,map_some]

/-! What the stores leave in the fields -/

theorem or_field {x v s : UInt64} {fs : List (Nat × Nat)} {y : Nat} (hx : x.toNat=pack fs)
    (hs : s.toNat=widths fs) (hv : v.toNat=y%2^n) (h64 : s.toNat<64)
    (hn : s.toNat+n≤64) : (x ||| v <<< s).toNat=pack (fs++[(n,y)]) := by
  rw [hs] at h64 hn
  have hlt : v.toNat <<< widths fs<2^64 := by
    rw [shiftLeft_eq,hv]
    calc
      y%2^n*2^widths fs<2^n*2^widths fs :=
        Nat.mul_lt_mul_of_pos_right (mod_lt y (Nat.two_pow_pos n)) (Nat.two_pow_pos _)
      _=2^(widths fs+n) := by rw [← pow_add,add_comm]
      _≤2^64 := Nat.pow_le_pow_right (by decide) hn
  rw [pack_snoc,← hv,UInt64.toNat_or,UInt64.toNat_shiftLeft,hx,hs,mod_eq_of_lt h64,
    mod_eq_of_lt hlt]

theorem word16 (v : UInt16) : v.toUInt64.toNat=v.toNat%2^16 := by
  rw [UInt16.toNat_toUInt64,mod_eq_of_lt v.toNat_lt]

theorem rearm_toNat (dataOff refcnt nbSegs port : UInt16) :
    (rearm dataOff refcnt nbSegs port).toNat =
      pack [(16,dataOff.toNat),(16,refcnt.toNat),(16,nbSegs.toNat),(16,port.toNat)] := by
  have h1 : dataOff.toUInt64.toNat=pack [(16,dataOff.toNat)] := word16 dataOff
  have h2 := or_field h1 (s := 16) rfl (word16 refcnt) (by decide) (by decide)
  have h3 := or_field h2 (s := 32) rfl (word16 nbSegs) (by decide) (by decide)
  exact or_field h3 (s := 48) rfl (word16 port) (by decide) (by decide)

theorem rearm_fields (dataOff refcnt nbSegs port : UInt16) :
    (rearm dataOff refcnt nbSegs port).toNat/256^0%256^2=dataOff.toNat ∧
      (rearm dataOff refcnt nbSegs port).toNat/256^4%256^2=nbSegs.toNat := by
  have h1 := pack_field [] [(16,refcnt.toNat),(16,nbSegs.toNat),(16,port.toNat)] 16 dataOff.toNat
  have h2 := pack_field [(16,dataOff.toNat),(16,refcnt.toNat)] [(16,port.toNat)] 16 nbSegs.toNat
  rw [mod_eq_of_lt dataOff.toNat_lt] at h1
  rw [mod_eq_of_lt nbSegs.toNat_lt] at h2
  have hp2 : (256 : Nat)^2=2^16 := by decide
  have hp4 : (256 : Nat)^4=2^32 := by decide
  rw [rearm_toNat,hp2,hp4]
  exact ⟨h1,h2⟩

structure TxLengths where
  l2Len : Nat
  l3Len : Nat
  l4Len : Nat
  tsoSegsz : Nat
  deriving DecidableEq, Repr

def txLengths (w : UInt64) : TxLengths :=
  ⟨w.toNat%2^7,w.toNat/2^7%2^9,w.toNat/2^16%2^8,w.toNat/2^24%2^16⟩

def tsoWord (l2Len l3Len l4Len segSize : UInt64) : UInt64 :=
  (l2Len &&& 0x7f : UInt64) ||| (l3Len &&& 0x1ff : UInt64) <<< 7 |||
    (l4Len &&& 0xff : UInt64) <<< 16 ||| (segSize &&& 0xffff : UInt64) <<< 24

theorem and_mask {m : UInt64} (hm : m.toNat=2^n-1) (v : UInt64) : (v &&& m).toNat=v.toNat%2^n := by
  rw [UInt64.toNat_and,hm,and_two_pow_sub_one_eq_mod]

theorem tsoWord_toNat (l2Len l3Len l4Len segSize : UInt64) :
    (tsoWord l2Len l3Len l4Len segSize).toNat =
      pack [(7,l2Len.toNat),(9,l3Len.toNat),(8,l4Len.toNat),(16,segSize.toNat)] := by
  have h1 : (l2Len &&& 0x7f : UInt64).toNat=pack [(7,l2Len.toNat)] := and_mask rfl l2Len
  have h2 :=
    or_field h1 (s := 7) rfl (and_mask (m := 0x1ff) (n := 9) rfl l3Len) (by decide) (by decide)
  have h3 :=
    or_field h2 (s := 16) rfl (and_mask (m := 0xff) (n := 8) rfl l4Len) (by decide) (by decide)
  exact or_field h3 (s := 24) rfl (and_mask (m := 0xffff) (n := 16) rfl segSize)
    (by decide) (by decide)

theorem txLengths_tsoWord (l2Len l3Len l4Len segSize : UInt64) :
    txLengths (tsoWord l2Len l3Len l4Len segSize) =
      ⟨l2Len.toNat%2^7,l3Len.toNat%2^9,l4Len.toNat%2^8,segSize.toNat%2^16⟩ := by
  have h1 := pack_field [] [(9,l3Len.toNat),(8,l4Len.toNat),(16,segSize.toNat)] 7 l2Len.toNat
  have h2 := pack_field [(7,l2Len.toNat)] [(8,l4Len.toNat),(16,segSize.toNat)] 9 l3Len.toNat
  have h3 := pack_field [(7,l2Len.toNat),(9,l3Len.toNat)] [(16,segSize.toNat)] 8 l4Len.toNat
  have h4 := pack_field [(7,l2Len.toNat),(9,l3Len.toNat),(8,l4Len.toNat)] [] 16 segSize.toNat
  have hnil : widths []=0 := rfl
  rw [hnil,Nat.pow_zero,Nat.div_one] at h1
  rw [← h1,← h2,← h3,← h4,txLengths,tsoWord_toNat]
  rfl

theorem setTxOffload_eq (b : Region) (m : Nat) (l2Len l3Len : UInt64) :
    setTxOffload b m l2Len l3Len=setTxOffloadTSO b m l2Len l3Len 0 0 := by
  simp [setTxOffload,setTxOffloadTSO]

theorem txOffload_set {l2Len l3Len l4Len segSize : UInt64}
    (h : setTxOffloadTSO b m l2Len l3Len l4Len segSize=some b') :
    txOffload b' m=some (tsoWord l2Len l3Len l4Len segSize) := by
  have hss : b.stores m [⟨offTxOffload,8,(tsoWord l2Len l3Len l4Len segSize).toNat⟩]=some b' := by
    rw [← h]
    exact bind_fun_some _
  exact Region.stores_uint64 hss (List.pairwise_singleton _ _) List.mem_cons_self

/-! What sending reads of an mbuf -/

structure TxFields where
  bufAddr : UInt64
  dataOff : UInt16
  nbSegs : UInt16
  olFlags : UInt64
  pktLen : UInt32
  dataLen : UInt16
  pool : UInt64
  next : UInt64
  txOffload : UInt64
  deriving DecidableEq, Repr

variable {x : TxFields}

def txRead (b : Region) (m : Nat) : Option TxFields := do
  let bufAddr ← bufAddr b m
  let dataOff ← dataOff b m
  let nbSegs ← nbSegs b m
  let olFlags ← olFlags b m
  let pktLen ← pktLen b m
  let dataLen ← dataLen b m
  let pool ← pool b m
  let next ← next b m
  let txOffload ← txOffload b m
  some ⟨bufAddr,dataOff,nbSegs,olFlags,pktLen,dataLen,pool,next,txOffload⟩

theorem txRead_iff : txRead b m=some x ↔
    bufAddr b m=some x.bufAddr ∧ dataOff b m=some x.dataOff ∧ nbSegs b m=some x.nbSegs ∧
    olFlags b m=some x.olFlags ∧ pktLen b m=some x.pktLen ∧ dataLen b m=some x.dataLen ∧
    pool b m=some x.pool ∧ next b m=some x.next ∧ txOffload b m=some x.txOffload := by
  obtain ⟨x1,x2,x3,x4,x5,x6,x7,x8,x9⟩ := x
  simp [txRead,bind,bind_eq_some_iff]

theorem txRead_some (hm : m+size≤b.len) : ∃ x, txRead b m=some x := by
  have hget : ∀ off n, off+n ≤ size → b.get (m+off) n=some _ := fun off n hn => if_pos (by omega)
  simp (disch := decide) only
    [txRead, bufAddr, dataOff, nbSegs, olFlags, pktLen, dataLen, pool, next,
    txOffload, Region.uint64, Region.uint32, Region.uint16, hget, map_some, bind, bind_some]
  exact ⟨_,rfl⟩

theorem txRead_congr (hlen : b'.len=b.len)
    (h : ∀ i, i<size → b'.mem (m+i)=b.mem (m+i)) : txRead b' m=txRead b m := by
  have hget : ∀ off n, off+n ≤ size → b'.get (m+off) n=b.get (m+off) n := fun off n hn =>
    Region.get_congr hlen fun i hi => by rw [add_assoc,h (off+i) (by omega)]
  simp (disch := decide) only
    [txRead, bufAddr, dataOff, nbSegs, olFlags, pktLen, dataLen, pool, next,
    txOffload, Region.uint64, Region.uint32, Region.uint16, hget]

section
variable {b b' : Region} {m : Nat}

theorem txRead_prepareTx {p : UInt64} {off : UInt16} {length : UInt32}
    (hx : txRead b m=some x) (h : prepareTx b m p off length=some b') :
    txRead b' m=some
      { bufAddr := x.bufAddr, dataOff := off, nbSegs := 1, olFlags := 0, pktLen := length
        dataLen := length.toUInt16, pool := p, next := 0, txOffload := x.txOffload } := by
  rw [prepareTx_eq] at h
  generalize hss : ([_,_,_,_,_,_] : List Store)=ss at h
  have hap : ss.Pairwise Store.Apart := by
    simp [← hss,Store.Apart,offRearm,offOlFlags,offPktLen,offDataLen,offNext,offPool]
  have hrearm : ⟨offRearm,8,(rearm off 1 1 portInvalid).toNat⟩∈ss := by simp [← hss]
  have hpkt : ⟨offPktLen,4,length.toNat⟩∈ss := by simp [← hss]
  have hlen : ⟨offDataLen,2,length.toUInt16.toNat⟩∈ss := by simp [← hss]
  obtain ⟨hoff,hseg⟩ := rearm_fields off 1 1 portInvalid
  have haddr : b'.get (m+offBufAddr) 8=b.get (m+offBufAddr) 8 := Region.stores_beside h (by
    simp [← hss,offBufAddr,offRearm,offOlFlags,offPktLen,offDataLen,offNext,offPool])
  have hword : b'.get (m+offTxOffload) 8=b.get (m+offTxOffload) 8 := Region.stores_beside h (by
    simp [← hss,offTxOffload,offRearm,offOlFlags,offPktLen,offDataLen,offNext,offPool])
  have hfour : b'.get (m+offPktLen) 4=some (length.toNat/256^0%256^4) :=
    Region.stores_get h hap hpkt (le_of_eq (zero_add 4))
  rw [txRead_iff] at hx ⊢
  refine ⟨?_,?_,?_,?_,?_,?_,?_,?_,?_⟩
  · rw [bufAddr,Region.uint64,haddr]
    exact hx.1
  · exact Region.stores_uint16 h hap hrearm (j := 0) (by decide) hoff
  · exact Region.stores_uint16 h hap hrearm (j := 4) (by decide) hseg
  · exact Region.stores_uint64 h hap (by simp [← hss])
  · have hlt : length.toNat%256^4=length.toNat := mod_eq_of_lt length.toNat_lt
    rw [pktLen,Region.uint32,hfour,map_some,Nat.pow_zero,Nat.div_one,hlt,UInt32.ofNat_toNat]
  · apply Region.stores_uint16 h hap hlen (j := 0) (by decide)
    rw [Nat.pow_zero,Nat.div_one]
    exact mod_eq_of_lt length.toUInt16.toNat_lt
  · exact Region.stores_uint64 h hap (by simp [← hss])
  · exact Region.stores_uint64 h hap (by simp [← hss])
  · rw [txOffload,Region.uint64,hword]
    exact hx.2.2.2.2.2.2.2.2

theorem txRead_work {flags word : UInt64} (hx : txRead b m=some x)
    (h : b.stores m [⟨offOlFlags,8,flags.toNat⟩,⟨offTxOffload,8,word.toNat⟩]=some b') :
    txRead b' m=some { x with olFlags := flags, txOffload := word } := by
  have hap : ([⟨offOlFlags,8,flags.toNat⟩,⟨offTxOffload,8,word.toNat⟩] : List Store).Pairwise
      Store.Apart := by
    simp [Store.Apart,offOlFlags,offTxOffload]
  have hbeside : ∀ off n, off+n≤offOlFlags ∨ (offOlFlags+8≤off ∧ off+n≤offTxOffload) →
      b'.get (m+off) n=b.get (m+off) n := by
    intro off n hoff
    apply Region.stores_beside h
    simp only [List.mem_cons,List.not_mem_nil,or_false,forall_eq_or_imp,forall_eq]
    rw [offOlFlags,offTxOffload] at *
    omega
  have hflags : olFlags b' m=some flags := Region.stores_uint64 h hap (by simp)
  have hword : txOffload b' m=some word := Region.stores_uint64 h hap (by simp)
  obtain ⟨h1,h2,h3,-,h5,h6,h7,h8,-⟩ := txRead_iff.mp hx
  rw [txRead_iff]
  simp (disch := decide) only [bufAddr, dataOff, nbSegs, pktLen, dataLen, pool, next, Region.uint64,
    Region.uint32, Region.uint16, hbeside]
  exact ⟨h1,h2,h3,hflags,h5,h6,h7,h8,hword⟩

theorem rxRead_of_txRead (hm : m+size≤b.len) (hx : txRead b m=some x) :
    rxRead b m=some ⟨x.dataOff,x.nbSegs,x.dataLen,x.olFlags⟩ := by
  obtain ⟨f,hf,hoff,hseg,hlen,hol⟩ := rxRead_fields hm
  obtain ⟨-,hoff',hseg',hol',-,hlen',-⟩ := txRead_iff.mp hx
  rw [hoff,some_inj] at hoff'
  rw [hseg,some_inj] at hseg'
  rw [hlen,some_inj] at hlen'
  rw [hol,some_inj] at hol'
  rw [hf,← hoff',← hseg',← hlen',← hol']

end

end Dpdk.Mbuf

end Packetio
