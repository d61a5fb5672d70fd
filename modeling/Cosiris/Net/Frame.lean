import Cosiris.Lib.Bytes
import Cosiris.Lib.Prog
import Mathlib.Algebra.Order.Group.Nat

/-!
# Received frames

`net_process` of `net.c` and what it calls for a received frame: `arp.c`, `ip.c`,
`icmp.c`, `udp.c`. The headers are converted in place from network to host format,
so each function works on the memory that starts at `buf->data`. The bytes after
the frame are memory as well: what an access beyond the frame would see.

`reach` records how far the accesses went: it is one more than the highest index
read or written. The machine is little-endian (`is_bige` is 0). The debug messages, the
locks and the wakeups are left out.
-/

namespace Cosiris.Net

open Prog

/-- A network buffer (`struct net_buf`). `udata` is the index in `data` that `u.data` points
to. -/
structure NetBuf where
  nic : ℕ
  size : ℕ
  captured : Bool
  udata : ℕ
  ulen : ℕ
  data : ℕ → UInt8
  reach : ℕ

/-- A network interface (`struct netif`). `priv` says that a device is attached. -/
structure Netif where
  mac : List UInt8
  ips : List ℕ
  priv : Bool
  mac_size : mac.length = 6
  ips_size : ips.length = 4

/-- A socket (`sock_t`). -/
structure Sock where
  proto : ℕ
  locIp : ℕ
  locPort : ℕ
  remIp : ℕ
  remPort : ℕ
  bufs : List NetBuf

/-- The states of an entry of the ARP cache. -/
inductive ArpStatus where
  | free
  | pending
  | solved
  deriving DecidableEq

/-- An entry of the ARP cache (`struct arp_entry`). -/
structure ArpEntry where
  ip : ℕ
  mac : List UInt8
  status : ArpStatus
  expireTs : ℕ

/-- The state of the network code, and the frames it sent. `now` is what `get_time` gives. -/
structure Stack where
  netifs : ℕ → Netif
  socks : List Sock
  arpCache : List ArpEntry
  now : ℕ
  sent : List (List UInt8)

/-- The state while a buffer is processed. -/
structure Rx where
  net : Stack
  buf : NetBuf

/-- Code that runs on a received buffer. -/
abbrev RxM := Prog Empty Rx

/-- An access to the bytes below index `k`. -/
def NetBuf.touch (b : NetBuf) (k : ℕ) : NetBuf := { b with reach := max b.reach k }

/-- The buffer with other memory. -/
def NetBuf.setData (b : NetBuf) (d : ℕ → UInt8) : NetBuf := { b with data := d }

/-- Change the buffer. -/
def Rx.onBuf (s : Rx) (f : NetBuf → NetBuf) : Rx := { s with buf := f s.buf }

/-- Read the number of `n` bytes at index `i`. -/
def rd (n i : ℕ) : RxM ℕ := do
  modify (·.onBuf (·.touch (i + n)))
  let s ← read
  return getLe s.buf.data i n

/-- Write a number of `n` bytes at index `i`. -/
def wr (n i v : ℕ) : RxM Unit :=
  modify (·.onBuf fun b => (b.touch (i + n)).setData (putLe b.data i n v))

/-- Read `n` bytes from index `i`. -/
def rdBytes (n i : ℕ) : RxM (List UInt8) := do
  modify (·.onBuf (·.touch (i + n)))
  let s ← read
  return getBytes s.buf.data i n

/-- Write bytes from index `i`. -/
def wrBytes (i : ℕ) (bs : List UInt8) : RxM Unit :=
  modify (·.onBuf fun b => (b.touch (i + bs.length)).setData (putBytes b.data i bs))

/-- `memcpy` of `n` bytes of the buffer, from index `i` to index `j`. -/
def memcpy (j i n : ℕ) : RxM Unit := do
  let bs ← rdBytes n i
  wrBytes j bs

/-- `ntohs`, `ntohl`, `htons` and `htonl`: the bytes of a number the other way round. -/
def ntoh (n v : ℕ) : ℕ := leVal (leBytes n v).reverse

/-- Convert the number of `n` bytes at index `i` between network and host format. -/
def swap (n i : ℕ) : RxM Unit := do
  let v ← rd n i
  wr n i (ntoh n v)

/-- `netif->send` of the first `n` bytes of the buffer. -/
def send (n : ℕ) : RxM Unit := do
  let frame ← rdBytes n 0
  modify fun s => { s with net := { s.net with sent := s.net.sent ++ [frame] } }

/-- `&netifs[buf->nic]`. -/
def netif : RxM Netif := do
  let s ← read
  return s.net.netifs s.buf.nic

/-! ### Ethernet -/

/-- `buf2eth`. -/
def buf2eth : RxM Unit := swap 2 12

/-- `eth2buf`. -/
def eth2buf : RxM Unit := swap 2 12

/-! ### ARP -/

/-- `buf2arph`. -/
def buf2arph : RxM Unit := do
  swap 2 14
  swap 2 16
  swap 2 20

/-- `arph2buf`. -/
def arph2buf : RxM Unit := do
  swap 2 14
  swap 2 16
  swap 2 20

/-- `buf2arpd`. -/
def buf2arpd : RxM Unit := do
  swap 4 28
  swap 4 38

/-- `arpd2buf`. -/
def arpd2buf : RxM Unit := do
  swap 4 28
  swap 4 38

/-- `arp_cache_check_expired`: the entry, freed if it has expired. -/
def ArpEntry.checkExpired (now : ℕ) (e : ArpEntry) : ArpEntry :=
  if e.expireTs < now then ⟨0, List.replicate 6 0, .free, 0⟩ else e

/-- `arp_cache_set_mac`: the new cache, and whether a pending entry was found. -/
def arpCacheSetMac (now ip : ℕ) (mac : List UInt8) : List ArpEntry → List ArpEntry × Bool
  | [] => ([], false)
  | e :: es =>
    let e' := e.checkExpired now
    if e'.ip = ip ∧ e'.status = .pending then (⟨ip, mac, .solved, (now + 300) % 2 ^ 32⟩ :: es, true)
    else
      let (es', found) := arpCacheSetMac now ip mac es
      (e' :: es', found)

/-- The answer of `arp_process` to a request, in the same buffer, for the address `ip`. -/
def arpReply (ip : ℕ) : RxM Unit := do
  let netif ← netif
  memcpy 0 6 6
  wrBytes 6 netif.mac
  eth2buf
  wr 2 20 2
  arph2buf
  let sip ← rd 4 28
  wr 4 38 sip
  memcpy 32 22 6
  wr 4 28 ip
  wrBytes 22 netif.mac
  arpd2buf
  send 42

/-- `arp_process`. -/
def arpProcess : RxM ℤ := do
  buf2eth
  buf2arph
  let htype ← rd 2 14
  let ptype ← rd 2 16
  if htype ≠ 1 ∨ ptype ≠ 0x800 then return -1
  let hlen ← rd 1 18
  let plen ← rd 1 19
  if hlen ≠ 6 ∨ plen ≠ 4 then return -1
  let op ← rd 2 20
  if op ≠ 1 ∧ op ≠ 2 then return -1
  let s ← read
  if s.buf.size < 42 then return -1
  buf2arpd
  let netif ← netif
  if !netif.priv then return -1
  if op = 1 then do
    let dip ← rd 4 38
    if dip ∉ netif.ips then return -1
    arpReply dip
    return 0
  else do
    let sip ← rd 4 28
    let smac ← rdBytes 6 22
    let s ← read
    let (cache, found) := arpCacheSetMac s.net.now sip smac s.net.arpCache
    modify fun s => { s with net := { s.net with arpCache := cache } }
    if !found then return -1
    return 0

/-! ### IP -/

/-- The first two loops of `ip_csum`, on the `n` bytes left from index `i`. -/
def ipSum : ℕ → ℕ → ℕ → RxM ℕ
  | n + 2, i, sum => do
    let w ← rd 2 i
    ipSum n (i + 2) ((sum + w) % 2 ^ 32)
  | 1, i, sum => do
    let c ← rd 1 i
    return (sum + c) % 2 ^ 32
  | 0, _, sum => return sum

/-- The last loop of `ip_csum`, which ends after at most `sum` rounds. -/
def foldCarry : ℕ → ℕ → ℕ
  | 0, sum => sum
  | fuel + 1, sum => if sum / 2 ^ 16 = 0 then sum else foldCarry fuel (sum % 2 ^ 16 + sum / 2 ^ 16)

/-- `(uint16_t) ~sum`. -/
def not16 (sum : ℕ) : ℕ := 2 ^ 16 - 1 - sum % 2 ^ 16

/-- `ip_csum` of the `len` bytes from index `i`. A negative length counts as 0. -/
def ipCsum (i len : ℕ) : RxM ℕ := do
  let sum ← ipSum len i 0
  return not16 (foldCarry sum sum)

/-- `iphlen`. -/
def iphlen : RxM ℕ := do
  let hlen ← rd 1 14
  return hlen % 8 * 4

/-- The bit-field `version`, the low half of its byte. -/
def getVersion : RxM ℕ := do
  let b ← rd 1 14
  return b % 16

/-- The bit-field `ihl`, the high half. -/
def getIhl : RxM ℕ := do
  let b ← rd 1 14
  return b / 16

def setVersion (v : ℕ) : RxM Unit := do
  let b ← rd 1 14
  wr 1 14 (b / 16 * 16 + v % 16)

def setIhl (v : ℕ) : RxM Unit := do
  let b ← rd 1 14
  wr 1 14 (b % 16 + v % 16 * 16)

/-- The exchange of `version` and `ihl`. -/
def swapIhl : RxM Unit := do
  let ihl ← getVersion
  let version ← getIhl
  setVersion version
  setIhl ihl

/-- The numbers at the same place in both formats. -/
def swapIpv4 : RxM Unit := do
  swap 2 16
  swap 2 18
  swap 2 24
  swap 4 26
  swap 4 30

/-- `buf2ipv4`. The bit-fields `flags` and `frag_offs` are the low 3 and the high 13 bits of the
word at index 20. -/
def buf2ipv4 : RxM Unit := do
  swapIhl
  let w ← rd 2 20
  let frg := ntoh 2 w
  wr 2 20 (frg / 2 ^ 13 % 8 + frg % 2 ^ 13 * 8)
  swapIpv4

/-- `ipv42buf`. -/
def ipv42buf : RxM Unit := do
  swapIhl
  let val ← rd 2 20
  wr 2 20 (ntoh 2 ((val % 8 * 2 ^ 13 + val / 8) % 2 ^ 16))
  swapIpv4

/-- `ip_data`: the index of what follows the header. -/
def ipData : RxM ℕ := do
  let ihl ← getIhl
  return 14 + ihl * 4

/-! ### ICMP -/

/-- `buf2icmpv4`, with the header at index `o`. -/
def buf2icmpv4 (o : ℕ) : RxM Unit := swap 2 (o + 2)

/-- `icmpv42buf`. -/
def icmpv42buf (o : ℕ) : RxM Unit := swap 2 (o + 2)

/-- What `icmpv4_echo_reply` does with the IP header. -/
def echoIp : RxM Unit := do
  let dip ← rd 4 30
  let sip ← rd 4 26
  wr 4 30 sip
  wr 4 26 dip
  wr 1 22 64
  wr 2 24 0
  ipv42buf
  let hlen ← iphlen
  let csum ← ipCsum 14 hlen
  wr 2 24 csum

/-- What `icmpv4_echo_reply` does with the Ethernet header. -/
def echoEth : RxM Unit := do
  let netif ← netif
  memcpy 0 6 6
  wrBytes 6 netif.mac
  eth2buf

/-- `icmpv4_echo_reply`. -/
def icmpv4EchoReply : RxM Unit := do
  let o ← ipData
  wr 1 o 0
  wr 2 (o + 2) 0
  wr 1 (o + 1) 0
  icmpv42buf o
  let len ← rd 2 16
  let csum ← ipCsum o (len - 20)
  wr 2 (o + 2) csum
  echoIp
  echoEth
  let s ← read
  send s.buf.size

/-- `icmpv4_process`. -/
def icmpv4Process : RxM ℤ := do
  let o ← ipData
  let len ← rd 2 16
  let csum ← ipCsum o (len - 20)
  if csum ≠ 0 then return -1
  buf2icmpv4 o
  let type ← rd 1 o
  if type = 8 then icmpv4EchoReply
  return 0

/-! ### UDP -/

/-- `buf2udp`, with the header at index `o`. -/
def buf2udp (o : ℕ) : RxM Unit := do
  swap 2 o
  swap 2 (o + 2)
  swap 2 (o + 4)
  swap 2 (o + 6)

/-- The sum of the two halves of an address in network format. -/
def halves (ip : ℕ) : ℕ := ntoh 4 ip % 2 ^ 16 + ntoh 4 ip / 2 ^ 16

/-- The loop of `udp_csum`: `n` more words, of which the `k` first are of the header. -/
def udpSum : ℕ → ℕ → ℕ → ℕ → RxM ℕ
  | 0, _, _, sum => return sum
  | n + 1, k, i, sum => do
    let w ← rd 2 i
    udpSum n (k - 1) (i + 2) ((sum + if 0 < k then ntoh 2 w else w) % 2 ^ 32)

/-- `udp_csum`. -/
def udpCsum (o : ℕ) : RxM ℕ := do
  let saddr ← rd 4 26
  let daddr ← rd 4 30
  let proto ← rd 1 23
  let len ← rd 2 (o + 4)
  let sum ← udpSum (len / 2) 4 o (halves saddr + halves daddr + ntoh 2 proto + ntoh 2 len)
  let c ← if len % 2 = 1 then rd 1 (o + len / 2 * 2) else pure 0
  let sum := (sum + c) % 2 ^ 32
  return not16 (sum % 2 ^ 16 + sum / 2 ^ 16)

/-- The test of `udp_process` for the socket of a datagram. -/
def Sock.accepts (daddr dport saddr sport : ℕ) (s : Sock) : Bool :=
  s.proto = 0 && s.locPort = dport && (s.locIp = 0 || s.locIp = daddr) &&
    (s.remPort = 0 || s.remPort = sport) && (s.remIp = 0 || s.remIp = 0xFFFFFFFF || s.remIp = saddr)

/-- `SOCK_MAX_BUFS`. -/
def sockMaxBufs : ℕ := 4

/-- Record where the datagram is that starts at index `o`, and mark the buffer as captured. -/
def NetBuf.capture (o len : ℕ) (b : NetBuf) : NetBuf :=
  { b with captured := true, udata := o + 8, ulen := (len + (2 ^ 32 - 8)) % 2 ^ 32 }

/-- Add the buffer to the datagrams of the socket at place `i`. -/
def Rx.enqueue (i : ℕ) (s : Rx) : Rx :=
  { s with net := { s.net with
                    socks := s.net.socks.modify i fun k => { k with bufs := k.bufs ++ [s.buf] } } }

/-- `s->bufs->num_items` of the socket at place `i`. -/
def Stack.numItems (n : Stack) (i : ℕ) : ℕ := n.socks[i]?.elim 0 fun k => k.bufs.length

/-- What `udp_process` does with a datagram whose checksum is right. -/
def udpDeliver (o : ℕ) : RxM ℤ := do
  let dport ← rd 2 (o + 2)
  let daddr ← rd 4 30
  let sport ← rd 2 o
  let saddr ← rd 4 26
  let s ← read
  match s.net.socks.findIdx? (Sock.accepts daddr dport saddr sport) with
  | none => return 0
  | some i => do
    if s.net.numItems i < sockMaxBufs then do
      let len ← rd 2 (o + 4)
      modify (·.onBuf (NetBuf.capture o len))
      modify (Rx.enqueue i)
    return 0

/-- `udp_process`. -/
def udpProcess : RxM ℤ := do
  let o ← ipData
  buf2udp o
  let csum ← rd 2 (o + 6)
  let bad ← if csum ≠ 0 then udpCsum o else pure 0
  if bad ≠ 0 then return -1
  udpDeliver o

/-- `ip_process`. -/
def ipProcess : RxM ℤ := do
  buf2eth
  let hlen ← iphlen
  let csum ← ipCsum 14 hlen
  buf2ipv4
  let netif ← netif
  let version ← getVersion
  if version ≠ 4 then return -1
  let ihl ← getIhl
  if ihl < 5 then return -1
  let ttl ← rd 1 22
  if ttl = 0 then return -1
  if csum ≠ 0 then return -1
  let daddr ← rd 4 30
  if daddr ≠ 0xFFFFFFFF ∧ daddr ∉ netif.ips then return -1
  let proto ← rd 1 23
  if proto = 1 then discard icmpv4Process
  else if proto = 17 then discard udpProcess
  return 0

/-- `net_process`. -/
def netProcess : RxM ℤ := do
  let ethType ← rd 2 12
  let s ← read
  if s.buf.size < 14 then return -1
  if ntoh 2 ethType = 0x806 then discard arpProcess
  else if ntoh 2 ethType = 0x800 then discard ipProcess
  return 0

/-- What `udp_read` does with the first datagram of a socket: it copies at most `size` bytes
of it. The bytes copied, and the buffer they were copied from. -/
def NetBuf.copy (size : ℕ) (b : NetBuf) : List UInt8 × NetBuf :=
  let size := if b.ulen < size then b.ulen else size
  (getBytes b.data b.udata size, if size = 0 then b else b.touch (b.udata + size))

end Cosiris.Net
