import Packetio.Lib.OnesComplement

/-! The Internet checksum as gvisor computes it (checksum/checksum.go and
checksum_unsafe.go): words of the machine's own byte order, eight bytes at a time from an
aligned address on, with carries that go around. Numbers are `Nat`, cut to their width where
the source adds them. -/
namespace Packetio.Netstack
open Lib List Nat

inductive ByteOrder
  | little
  | big
  deriving DecidableEq, Repr

namespace ByteOrder

def load : ByteOrder → List UInt8 → Nat
  | little, bytes => littleNat bytes
  | big, bytes => bigNat bytes

def store : ByteOrder → Nat → Nat → List UInt8
  | little, n, v => littleBytes n v
  | big, n, v => (littleBytes n v).reverse

def unit : ByteOrder → Nat
  | little => 256
  | big => 1

end ByteOrder

def bswapIfLittleEndian32 (o : ByteOrder) (val : Nat) : Nat := bigNat (o.store 4 val)
def bswapIfLittleEndian16 (o : ByteOrder) (val : Nat) : Nat := bigNat (o.store 2 val)
def bswapIfBigEndian16 (o : ByteOrder) (val : Nat) : Nat := littleNat (o.store 2 val)

/-- `bits.ReverseBytes32` and `bits.ReverseBytes16` -/
def reverseBytes32 (x : Nat) : Nat := bigNat (littleBytes 4 x)
def reverseBytes16 (x : Nat) : Nat := bigNat (littleBytes 2 x)

/-- `bits.Add64` -/
def add64 (x y carry : Nat) : Nat × Nat := ((x+y+carry)%2^64,(x+y+carry)/2^64)

def addWords (acc : Nat) (ws : List Nat) : Nat :=
  let s := ws.foldl (fun s w => add64 s.1 w s.2) (acc,0)
  (add64 s.1 0 s.2).1

def reduce (acc : Nat) : Nat :=
  let acc := (acc/2^32+acc%2^32)%2^64
  let acc32 := (acc/2^32+acc)%2^32
  let acc32 := (acc32/2^16+acc32%2^16)%2^32
  (acc32/2^16+acc32)%2^16

structure Summing where
  acc : Nat
  addr : Nat
  buf : List UInt8

namespace Summing
variable (o : ByteOrder)

def skip (s : Summing) (acc n : Nat) : Summing := ⟨acc,s.addr+n,s.buf.drop n⟩

/-- One number of `n` bytes, added where there is no carry. -/
def align (n : Nat) (s : Summing) : Summing :=
  if s.addr/n%2≠0 then s.skip ((s.acc+o.load (s.buf.take n))%2^64) n else s

/-- The next `k` numbers of `width` bytes. -/
def words (width : Nat) : Nat → List UInt8 → List Nat
  | 0, _ => []
  | k+1, buf => o.load (buf.take width)::words width k (buf.drop width)

def add (width k : Nat) (s : Summing) : Summing :=
  s.skip (addWords s.acc (words o width k s.buf)) (width*k)

def blocks : Nat → Summing → Summing
  | 0, s => s
  | fuel+1, s => if s.buf.length<64 then s else blocks fuel (s.add o 8 8)

def rest (width k : Nat) (s : Summing) : Summing :=
  if width*k ≤ s.buf.length then s.add o width k else s

def last (s : Summing) : Nat :=
  match s.buf with
  | [] => s.acc
  | b::_ => addWords s.acc [bswapIfBigEndian16 o b.toNat]

def run (s : Summing) : Nat :=
  let s := (s.align o 2).align o 4
  let s := s.blocks o s.buf.length
  let s := ((s.rest o 8 4).rest o 8 2).rest o 8 1
  ((s.rest o 4 1).rest o 2 1).last o

end Summing

def short (acc : Nat) (buf : List UInt8) : Nat :=
  let word (i : Nat) : Nat := (buf.getD i 0).toNat*2^8+(buf.getD (i+1) 0).toNat
  let (acc,i) := if 4≤buf.length then (((acc+word 0)%2^64+word 2)%2^64,4) else (acc,0)
  let (acc,i) := if 2≤buf.length-i then ((acc+word i)%2^64,i+2) else (acc,i)
  if 1≤buf.length-i then (acc+(buf.getD i 0).toNat*2^8)%2^64 else acc

def long (o : ByteOrder) (acc addr : Nat) (buf : List UInt8) : Nat :=
  let acc := bswapIfLittleEndian32 o (acc%2^32)
  if addr%2≠0 then
    -- the rest is summed with its bytes exchanged, and exchanged back at the end
    let acc := reverseBytes32 (acc%2^32)
    let acc := (acc+bswapIfLittleEndian16 o (buf.getD 0 0).toNat)%2^64
    reverseBytes16 (bswapIfLittleEndian16 o (reduce (Summing.run o ⟨acc,addr+1,buf.drop 1⟩)))
  else bswapIfLittleEndian16 o (reduce (Summing.run o ⟨acc,addr,buf⟩))

/-- `odd` says that the bytes summed before were odd in number; there is a byte then to go
with the last of them. -/
def calculateChecksum (o : ByteOrder) (addr : Nat) (buf : List UInt8) (odd : Bool)
    (initial : UInt16) : UInt16 × Bool :=
  let acc := initial.toNat
  let (acc,addr,buf) :=
    if odd then ((acc+(buf.getD 0 0).toNat)%2^64,addr+1,buf.drop 1) else (acc,addr,buf)
  let odd : Bool := buf.length%2≠0
  if buf.length<8 then (UInt16.ofNat (reduce (short acc buf)),odd)
  else (UInt16.ofNat (long o acc addr buf),odd)

/-! Numbers of the machine -/

theorem ones_halves32 (a : Nat) : ones (a/2^32+a%2^32)=ones a :=
  (ones_around (a/2^32*65537) (by omega) (by omega)).symm

theorem ones_halves16 (a : Nat) : ones (a/2^16+a%2^16)=ones a :=
  (ones_around (a/2^16) (by omega) (by omega)).symm

variable {acc width : Nat} {ws : List Nat} {buf : List UInt8}

theorem reduce_eq (h : acc<2^64) : reduce acc=ones acc := by
  -- each step takes what is above a power of `2^16` and adds it below
  have ha : (acc/2^32+acc%2^32)%2^64=acc/2^32+acc%2^32 := mod_eq_of_lt (by omega)
  have hla : acc/2^32+acc%2^32≤2*(2^32-1) := by omega
  rw [reduce,ha,← ones_halves32 acc]
  generalize acc/2^32+acc%2^32=a at hla
  have hb : (a/2^32+a)%2^32=a/2^32+a%2^32 := by omega
  have hlb : a/2^32+a%2^32<2^32 := by omega
  rw [hb,← ones_halves32 a]
  generalize a/2^32+a%2^32=b at hlb
  have hc : (b/2^16+b%2^16)%2^32=b/2^16+b%2^16 := mod_eq_of_lt (by omega)
  have hlc : b/2^16+b%2^16≤2*(2^16-1) := by omega
  rw [hc,← ones_halves16 b]
  generalize b/2^16+b%2^16=c at hlc
  have hd : (c/2^16+c)%2^16=c/2^16+c%2^16 := by omega
  rw [hd,← ones_halves16 c,ones_of_le (by omega)]

theorem foldl_add64 (hws : ∀ w∈ws, w<2^64) {a c : Nat} (ha : a<2^64) (hc : c=0 ∨ c=1 ∧ a<2^64-1) :
    ∃ a' c', ws.foldl (fun s w => add64 s.1 w s.2) (a,c)=(a',c') ∧ a'<2^64 ∧
      (c'=0 ∨ c'=1 ∧ a'<2^64-1) ∧ ones (a'+c')=ones (a+c+ws.sum) := by
  induction ws generalizing a c with
  | nil => exact ⟨a,c,rfl,ha,hc,rfl⟩
  | cons w ws ih =>
    have hw := hws w (by simp)
    have ha' : (a+w+c)%2^64<2^64 := mod_lt _ (by decide)
    have hc' : (a+w+c)/2^64=0 ∨ (a+w+c)/2^64=1 ∧ (a+w+c)%2^64<2^64-1 := by omega
    obtain ⟨a2,c2,hfold,ha2,hc2,hones⟩ := ih (fun v hv => hws v (by simp [hv])) ha' hc'
    refine ⟨a2,c2,hfold,ha2,hc2,?_⟩
    have hstep : ones ((a+w+c)%2^64+(a+w+c)/2^64)=ones (a+w+c) :=
      (ones_around ((a+w+c)/2^64*281479271743489) (by omega) (by omega)).symm
    rw [hones,ones_add hstep (rfl : ones ws.sum=ones ws.sum),sum_cons]
    congr 1
    omega

theorem addWords_spec (h : acc<2^64) (hws : ∀ w∈ws, w<2^64) :
    addWords acc ws<2^64 ∧ ones (addWords acc ws)=ones (acc+ws.sum) := by
  obtain ⟨a,c,hfold,ha,hc,hones⟩ := foldl_add64 hws h (.inl rfl)
  have hfit : a+0+c<2^64 := by omega
  have heq : addWords acc ws=a+c := by
    simp only [addWords,hfold]
    rw [add64,mod_eq_of_lt hfit,add_zero]
  rw [heq,hones]
  exact ⟨by omega,rfl⟩

namespace ByteOrder
variable (o : ByteOrder)

theorem load_lt (bytes : List UInt8) : o.load bytes<256^bytes.length := by
  cases o with
  | little => exact littleNat_lt bytes
  | big => exact bigNat_lt bytes

theorem ones_load {bytes : List UInt8} (h : bytes.length%2=0) :
    ones (o.load bytes)=ones (o.unit*wordSum bytes) := by
  cases o with
  | little => exact ones_littleNat h
  | big =>
    rw [unit,one_mul]
    exact ones_bigNat h

theorem bigNat_store_lt (n v : Nat) : bigNat (o.store n v)<256^n := by
  have hlt := bigNat_lt (o.store n v)
  cases o with
  | little => rwa [store,littleBytes_length] at hlt
  | big => rwa [store,length_reverse,littleBytes_length] at hlt

theorem ones_bigNat_store {n v : Nat} (h : v<256^n) (he : n%2=0) :
    ones (bigNat (o.store n v))=ones (o.unit*v) := by
  cases o with
  | little => exact ones_swap h he
  | big => rw [store,bigNat,reverse_reverse,littleNat_littleBytes n v h,unit,one_mul]

theorem ones_unit_unit (n : Nat) : ones (o.unit*(o.unit*n))=ones n := by
  cases o with
  | little => exact ones_around n (by simp only [unit]; omega) (by simp only [unit]; omega)
  | big => rw [unit,one_mul,one_mul]

theorem bswapIfBigEndian16_spec (b : UInt8) : bswapIfBigEndian16 o b.toNat<2^64 ∧
      ones (bswapIfBigEndian16 o b.toNat)=ones (o.unit*wordSum [b]) := by
  have hb := b.toNat_lt
  cases o with
  | little =>
    have heq : bswapIfBigEndian16 .little b.toNat=b.toNat :=
      littleNat_littleBytes 2 b.toNat (by omega)
    rw [heq,unit,wordSum]
    exact ⟨by omega,(ones_around b.toNat (by omega) (by omega)).symm⟩
  | big =>
    have heq : bswapIfBigEndian16 .big b.toNat=b.toNat*256 := by
      rw [bswapIfBigEndian16,store]
      simp [littleBytes,littleNat,ofDigits_cons,div_eq_of_lt hb]
      omega
    rw [heq,unit,wordSum,one_mul]
    exact ⟨by omega,rfl⟩

end ByteOrder

namespace Summing
variable {o : ByteOrder} {total n : Nat} {s : Summing}

structure Sums (o : ByteOrder) (total : Nat) (s : Summing) : Prop where
  lt : s.acc<2^64
  sum : ones (s.acc+o.unit*wordSum s.buf)=ones total

namespace Sums

theorem skip (h : s.Sums o total) (he : n%2=0) (hn : n ≤ s.buf.length)
    (hlt : acc<2^64) (hacc : ones acc=ones (s.acc+o.unit*wordSum (s.buf.take n))) :
    (s.skip acc n).Sums o total := by
  have hsplit : wordSum s.buf=wordSum (s.buf.take n)+wordSum (s.buf.drop n) := by
    have heven : (s.buf.take n).length%2=0 := by rwa [length_take,min_eq_left hn]
    rw [← wordSum_append _ heven,take_append_drop]
  refine ⟨hlt,?_⟩
  rw [← h.sum,hsplit,mul_add,← add_assoc]
  exact ones_add hacc rfl

theorem align (h : s.Sums o total) (he : n%2=0) (hn : n ≤ s.buf.length)
    (hroom : s.acc+256^n≤2^64) : (s.align o n).Sums o total := by
  rw [Summing.align]
  split
  case isFalse => exact h
  have hlen : (s.buf.take n).length=n := by rw [length_take,min_eq_left hn]
  have hload := o.load_lt (s.buf.take n)
  rw [hlen] at hload
  have hmod : (s.acc+o.load (s.buf.take n))%2^64=s.acc+o.load (s.buf.take n) :=
    mod_eq_of_lt (by omega)
  refine h.skip he hn (mod_lt _ (by decide)) ?_
  rw [hmod]
  exact ones_add rfl (o.ones_load (by rwa [hlen]))

end Sums

theorem align_acc (hn : n ≤ s.buf.length) : (s.align o n).acc<s.acc+256^n := by
  rw [align]
  split
  case isFalse => exact Nat.lt_add_of_pos_right (Nat.pow_pos (by decide))
  have hload := o.load_lt (s.buf.take n)
  rw [length_take,min_eq_left hn] at hload
  exact lt_of_le_of_lt (mod_le _ _) (by omega)

theorem align_length : s.buf.length-n≤(s.align o n).buf.length := by
  rw [align]
  split
  case isFalse => omega
  case isTrue => rw [Summing.skip,length_drop]

theorem words_spec (hw : width≤8) (he : width%2=0) (k : Nat) (buf : List UInt8)
    (hk : width*k≤buf.length) : (∀ w∈words o width k buf, w<2^64) ∧
      ones (words o width k buf).sum=ones (o.unit*wordSum (buf.take (width*k))) := by
  induction k generalizing buf with
  | zero => simp [words,wordSum]
  | succ k ih =>
    have hk' : width+width*k≤buf.length := by rwa [mul_succ,add_comm] at hk
    have hlen : (buf.take width).length=width := by
      rw [length_take]
      omega
    have heven : (buf.take width).length%2=0 := by rwa [hlen]
    obtain ⟨hlt,hsum⟩ := ih (buf.drop width) (by rw [length_drop]; omega)
    have hload : o.load (buf.take width)<2^64 := by
      refine lt_of_lt_of_le (o.load_lt _) ?_
      rw [hlen]
      exact Nat.pow_le_pow_right (by decide) hw
    refine ⟨fun w hmem => ?_,?_⟩
    · cases mem_cons.mp hmem with
      | inl heq => rwa [heq]
      | inr hmem => exact hlt w hmem
    · have hmul : width*(k+1)=width+width*k := by rw [mul_succ,add_comm]
      rw [words,sum_cons,hmul,take_add,wordSum_append _ heven,mul_add]
      exact ones_add (o.ones_load heven) hsum

theorem Sums.add {k : Nat} (h : s.Sums o total) (hw : width≤8) (he : width%2=0)
    (hk : width*k ≤ s.buf.length) : (s.add o width k).Sums o total := by
  obtain ⟨hlt,hsum⟩ := words_spec (o := o) hw he k s.buf hk
  obtain ⟨hacc,hones⟩ := addWords_spec h.lt hlt
  refine h.skip ?_ hk hacc (hones.trans (ones_add rfl hsum))
  rw [mul_mod,he,zero_mul,zero_mod]

theorem Sums.blocks (h : s.Sums o total) (fuel : Nat) : (s.blocks o fuel).Sums o total := by
  induction fuel generalizing s with
  | zero => exact h
  | succ fuel ih =>
    rw [Summing.blocks]
    split
    case isTrue => exact h
    case isFalse hlen => exact ih (h.add (by decide) (by decide) (by omega))

theorem blocks_length (fuel : Nat) (h : s.buf.length≤fuel) : (s.blocks o fuel).buf.length<64 := by
  induction fuel generalizing s with
  | zero =>
    rw [blocks]
    omega
  | succ fuel ih =>
    rw [blocks]
    split
    case isTrue hlen => exact hlen
    rename_i hlen
    refine ih ?_
    rw [add,skip,length_drop]
    omega

theorem Sums.rest (width k : Nat) (h : s.Sums o total) (hw : width≤8) (he : width%2=0) :
    (s.rest o width k).Sums o total := by
  rw [Summing.rest]
  split
  case isTrue hk => exact h.add hw he hk
  case isFalse => exact h

theorem rest_length (width k : Nat) (h : s.buf.length<2*(width*k)) :
    (s.rest o width k).buf.length<width*k := by
  rw [rest]
  split
  case isFalse hk => omega
  rename_i hk
  rw [add,skip,length_drop]
  omega

theorem Sums.last (h : s.Sums o total) (hlen : s.buf.length<2) :
    s.last o<2^64 ∧ ones (s.last o)=ones total := by
  obtain ⟨acc,addr,buf⟩ := s
  have hlt := h.lt
  have hsum := h.sum
  match buf, hlen, hsum with
  | [], _, hsum => exact ⟨hlt,hsum⟩
  | [b], _, hsum =>
    obtain ⟨hb,hones⟩ := o.bswapIfBigEndian16_spec b
    obtain ⟨hacc,hw⟩ :=
      addWords_spec hlt (by simpa using hb : ∀ w ∈ [bswapIfBigEndian16 o b.toNat], w<2^64)
    refine ⟨hacc,?_⟩
    rw [← hsum,Summing.last,hw,sum_singleton]
    exact ones_add rfl hones

theorem Sums.run (h : s.Sums o total) (hlen : 6 ≤ s.buf.length) (hacc : s.acc<2^33) :
    s.run o<2^64 ∧ ones (s.run o)=ones total := by
  have h2 := h.align (n := 2) (by decide) (by omega) (by omega)
  have hacc2 := align_acc (o := o) (s := s) (n := 2) (by omega)
  have hlen2 := align_length (o := o) (s := s) (n := 2)
  have h4 := h2.align (n := 4) (by decide) (by omega) (by omega)
  rw [Summing.run]
  generalize (s.align o 2).align o 4=t at h4
  have hb := h4.blocks t.buf.length
  have hlen := blocks_length (o := o) _ (le_refl t.buf.length)
  have hrest := ((hb.rest 8 4 (by decide) (by decide)).rest 8 2 (by decide) (by decide)).rest 8 1
    (by decide) (by decide)
  have hrest_len := rest_length (o := o) 8 1 (rest_length (o := o) 8 2
    (rest_length (o := o) 8 4 (by omega)))
  exact ((hrest.rest 4 1 (by decide) (by decide)).rest 2 1 (by decide) (by decide)).last
    (rest_length 2 1 (rest_length 4 1 (by omega)))

end Summing

/-! The whole buffer -/

theorem short_eq (hacc : acc<2^17) (hlen : buf.length<8) : short acc buf=acc+wordSum buf := by
  have hsum := wordSum_le buf
  have hlt : acc+wordSum buf<2^64 := by omega
  rw [← mod_eq_of_lt hlt]
  match buf, hlen with
  | [], _ => simp [short,wordSum,mod_eq_of_lt (by omega : acc<18446744073709551616)]
  | [a], _ => simp [short,wordSum]
  | [a,b], _ => simp [short,wordSum]
  | [a,b,c], _ => simp [short,wordSum,add_assoc]
  | [a,b,c,d], _ => simp [short,wordSum,add_assoc]
  | [a,b,c,d,e], _ => simp [short,wordSum,add_assoc]
  | [a,b,c,d,e,f], _ => simp [short,wordSum,add_assoc]
  | [a,b,c,d,e,f,g], _ => simp [short,wordSum,add_assoc]

theorem ones_reverseBytes32 {v : Nat} (h : v<2^32) :
    reverseBytes32 v<2^32 ∧ ones (reverseBytes32 v)=ones (256*v) :=
  ⟨ByteOrder.little.bigNat_store_lt 4 v,ones_swap h (by decide)⟩

theorem reverseBytes16_ones (n : Nat) : reverseBytes16 (ones n)=ones (256*n) := by
  have hle := ones_le n
  have hlt : reverseBytes16 (ones n)<2^16 := ByteOrder.little.bigNat_store_lt 2 (ones n)
  have hswap : ones (reverseBytes16 (ones n))=ones (256*ones n) := ones_swap (by omega) (by decide)
  rw [← ones_of_le (by omega : reverseBytes16 (ones n)≤65535),hswap]
  exact ones_mul 256 (ones_of_le hle)

theorem bswapIfLittleEndian16_ones (o : ByteOrder) (n : Nat) :
    bswapIfLittleEndian16 o (ones n)=ones (o.unit*n) := by
  have hle := ones_le n
  have hlt : bswapIfLittleEndian16 o (ones n)<2^16 := o.bigNat_store_lt 2 (ones n)
  have hswap : ones (bswapIfLittleEndian16 o (ones n))=ones (o.unit*ones n) :=
    o.ones_bigNat_store (by omega) (by decide)
  rw [← ones_of_le (by omega : bswapIfLittleEndian16 o (ones n)≤65535),hswap]
  exact ones_mul o.unit (ones_of_le hle)

theorem run_eq {o : ByteOrder} {addr total : Nat} (hlen : 6≤buf.length)
    (hacc : acc<2^33) (hones : ones (acc+o.unit*wordSum buf)=ones total) :
    reduce (Summing.run o ⟨acc,addr,buf⟩)=ones total := by
  have hlt : acc<2^64 := by omega
  have hsums : Summing.Sums o total ⟨acc,addr,buf⟩ := ⟨hlt,hones⟩
  obtain ⟨hrun,hsum⟩ := hsums.run hlen hacc
  rw [reduce_eq hrun,hsum]

theorem long_eq (o : ByteOrder) {addr : Nat} (hacc : acc<2^17)
    (hlen : 8≤buf.length) : long o acc addr buf=ones (acc+wordSum buf) := by
  have hswap : ones (bswapIfLittleEndian32 o acc)=ones (o.unit*acc) :=
    o.ones_bigNat_store (by omega) (by decide)
  have hlt : bswapIfLittleEndian32 o acc<2^32 := o.bigNat_store_lt 4 acc
  have hmod : acc%2^32=acc := mod_eq_of_lt (by omega)
  simp only [long,hmod,mod_eq_of_lt hlt]
  split
  case isFalse =>
    have htotal : ones (bswapIfLittleEndian32 o acc+o.unit*wordSum buf) =
        ones (o.unit*(acc+wordSum buf)) := by
      rw [mul_add]
      exact ones_add hswap rfl
    rw [run_eq (by omega) (by omega) htotal,bswapIfLittleEndian16_ones,o.ones_unit_unit]
  obtain ⟨b,rest,rfl⟩ : ∃ b rest, buf=b::rest := exists_cons_of_length_pos (by omega)
  have hb := b.toNat_lt
  rw [length_cons] at hlen
  have hfirst : ones (bswapIfLittleEndian16 o b.toNat)=ones (o.unit*b.toNat) :=
    o.ones_bigNat_store (by omega) (by decide)
  have hfirst_lt : bswapIfLittleEndian16 o b.toNat<2^16 := o.bigNat_store_lt 2 _
  obtain ⟨hrev_lt,hrev⟩ := ones_reverseBytes32 hlt
  -- twice exchanged, the first byte and the rest stand as they are loaded
  have hwords : ones (o.unit*(b.toNat+wordSum rest)) = ones (256*(o.unit*wordSum (b::rest))) := by
    have hcons := ones_mul 256 (ones_mul o.unit (ones_wordSum_cons b rest))
    have haround : ones (256*(o.unit*(256*(b.toNat+wordSum rest)))) =
        ones (o.unit*(b.toNat+wordSum rest)) := by
      rw [mul_left_comm o.unit]
      exact ones_around (o.unit*(b.toNat+wordSum rest)) (by omega) (by omega)
    rw [hcons,haround]
  have htotal : ones (reverseBytes32 (bswapIfLittleEndian32 o acc)+
      bswapIfLittleEndian16 o b.toNat+o.unit*wordSum rest) =
      ones (256*(o.unit*(acc+wordSum (b::rest)))) := by
    have hacc := hrev.trans (ones_mul 256 hswap)
    have hrest := ones_add hfirst (rfl : ones (o.unit*wordSum rest)=ones (o.unit*wordSum rest))
    rw [← mul_add] at hrest
    rw [add_assoc,mul_add o.unit,mul_add 256]
    exact ones_add hacc (hrest.trans hwords)
  have hfit : reverseBytes32 (bswapIfLittleEndian32 o acc)+bswapIfLittleEndian16 o b.toNat <
      2^64 := by omega
  have hback : ones (256*(o.unit*(256*(o.unit*(acc+wordSum (b::rest)))))) =
      ones (acc+wordSum (b::rest)) := by
    rw [mul_left_comm o.unit 256,← o.ones_unit_unit (acc+wordSum (b::rest))]
    exact ones_around (o.unit*(o.unit*(acc+wordSum (b::rest)))) (by omega) (by omega)
  rw [getD_cons_zero,drop_one,tail_cons,mod_eq_of_lt hfit,
    run_eq (by omega) (by omega) htotal,bswapIfLittleEndian16_ones,reverseBytes16_ones,hback]

theorem calculateChecksum_eq (o : ByteOrder) (addr : Nat) (buf : List UInt8) (odd : Bool)
    (initial : UInt16) : (calculateChecksum o addr buf odd initial).1.toNat=ones (initial.toNat+
        if odd then (buf.getD 0 0).toNat+wordSum (buf.drop 1) else wordSum buf) := by
  have hinit := initial.toNat_lt
  have hcore (acc addr : Nat) (buf : List UInt8) (hacc : acc<2^17) :
      (if buf.length<8 then UInt16.ofNat (reduce (short acc buf))
        else UInt16.ofNat (long o acc addr buf)).toNat=ones (acc+wordSum buf) := by
    have hle := ones_le (acc+wordSum buf)
    split
    case isTrue hlen =>
      have hsum := wordSum_le buf
      rw [short_eq hacc hlen,reduce_eq (by omega),UInt16.toNat_ofNat_of_lt' (lt_succ_of_le hle)]
    case isFalse hlen =>
      rw [long_eq o hacc (by omega),UInt16.toNat_ofNat_of_lt' (lt_succ_of_le hle)]
  rcases odd with _ | _
  · rw [if_neg Bool.false_ne_true,← hcore initial.toNat addr buf (by omega)]
    simp only [calculateChecksum,Bool.false_eq_true,if_false]
    split <;> rfl
  have hb := (buf.getD 0 0).toNat_lt
  have hmod : (initial.toNat+(buf.getD 0 0).toNat)%2^64=initial.toNat+(buf.getD 0 0).toNat :=
    mod_eq_of_lt (by omega)
  rw [if_pos rfl,← add_assoc,← hcore _ (addr+1) (buf.drop 1) (by omega)]
  simp only [calculateChecksum,if_true,hmod]
  split <;> rfl

end Packetio.Netstack
