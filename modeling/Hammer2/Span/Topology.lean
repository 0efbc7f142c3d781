/-
# `Hammer2.Span.Topology` — SPANs and their relays

A peer that opens a `LNK_CONN` transaction wants to hear of SPANs.  The SPANs received on all
connections are sorted into clusters, nodes and links, and the best link of each node is
relayed to the peers that want it.

    state     a transaction; `any` points from it to what it stands for
    conn      a received `LNK_CONN`, with the tree of the relays sent over its connection
    link      a received `LNK_SPAN`, with the list of the relays made from it
    relay     a `LNK_SPAN` we have sent: from a link, to a conn

Objects are known by their addresses, and reading a freed one gives `none`.  `none` is also a
failing assertion, and a shift by more than the width of the shifted.  A step is what a
message handler or `dmsg_relay_scan` does while it holds `cluster_mtx`.  Media, which a conn
also refers to, and the reference counts of the transactions are left out.
-/
import Mathlib.Logic.Function.Basic
import Hammer2.Lib.OrdTree

namespace Hammer2.Span

open Function (update)

/-- `DMSG_SPAN_MAXDIST` -/
abbrev spanMaxdist : BitVec 32 := 16

/-- `DMSG_PEER_CLIENT` -/
abbrev peerClient : BitVec 8 := 4

abbrev Uuid := BitVec 128

/-- A string, without the 0 that ends it. -/
abbrev Label := List UInt8

/-- `dmsg_lnk_span_t` -/
structure LnkSpan where
  peerId : Uuid
  pfsId : Uuid
  pfsType : BitVec 8
  peerType : BitVec 8
  dist : BitVec 32
  rnss : BitVec 32
  peerLabel : Label
  pfsLabel : Label
deriving DecidableEq

/-- `dmsg_lnk_conn_t` -/
structure LnkConn where
  peerId : Uuid
  peerMask : BitVec 64
  peerType : BitVec 8
deriving DecidableEq

/-! ## The objects -/

/-- The message handler of a transaction. -/
inductive Func
  | lnkConn
  | lnkSpan
  | lnkRelay
deriving DecidableEq

/-- The union `state->any`. -/
inductive Any
  | null
  | conn (c : Nat)
  | link (l : Nat)
  | relay (r : Nat)
deriving DecidableEq

/-- `dmsg_state_t`; `sent` is the `LNK_SPAN` that opened it, if it is one of ours. -/
structure State where
  iocom : Nat
  func : Func
  sent : Option LnkSpan
deriving DecidableEq

/-- `h2span_conn` -/
structure Conn where
  state : Nat
  lnkConn : LnkConn
deriving DecidableEq

@[ext] structure ClusterId where
  peerType : BitVec 8
  peerId : Uuid
  peerLabel : Label
deriving DecidableEq

/-- `h2span_cluster` -/
structure Cluster where
  id : ClusterId
  refs : Nat
deriving DecidableEq

@[ext] structure NodeId where
  pfsLabel : Label
  pfsId : Uuid
deriving DecidableEq

/-- `h2span_node` -/
structure Node where
  cls : Nat
  id : NodeId
  pfsType : BitVec 8
deriving DecidableEq

/-- `h2span_link` -/
structure Link where
  state : Nat
  node : Nat
  span : LnkSpan
deriving DecidableEq

/-- `h2span_relay` -/
structure Relay where
  conn : Nat
  sourceRt : Nat
  targetRt : Nat
deriving DecidableEq

/-- Everything `cluster_mtx` protects, a field that is a tree, a queue or `any` in a map of
its own.  No transaction and no relay has an address from `top` on. -/
structure Topo where
  states : Nat → Option State
  any : Nat → Any
  iocomConn : Nat → Option Nat
  conns : Nat → Option Conn
  connTree : Nat → List Nat
  connq : List Nat
  clusters : Nat → Option Cluster
  clsTree : Nat → List Nat
  clusterTree : List Nat
  nodes : Nat → Option Node
  nodeTree : Nat → List Nat
  links : Nat → Option Link
  relayq : Nat → List Nat
  relays : Nat → Option Relay
  top : Nat

def Topo.init : Topo where
  states _ := none
  any _ := .null
  iocomConn _ := none
  conns _ := none
  connTree _ := []
  connq := []
  clusters _ := none
  clsTree _ := []
  clusterTree := []
  nodes _ := none
  nodeTree _ := []
  links _ := none
  relayq _ := []
  relays _ := none
  top := 0

/-! ## The orders of the trees -/

/-- `h2span_cluster_cmp` -/
def clusterCmp : ClusterId → ClusterId → Ordering :=
  compareLex (compareOn (·.peerType)) (compareLex (compareOn (·.peerId)) (compareOn (·.peerLabel)))

/-- `h2span_node_cmp` -/
def nodeCmp : NodeId → NodeId → Ordering :=
  compareLex (compareOn (·.pfsLabel)) (compareOn (·.pfsId))

@[ext] structure LinkKey where
  dist : BitVec 32
  rnss : BitVec 32
  state : Nat
deriving DecidableEq

/-- `h2span_link_cmp` -/
def linkCmp : LinkKey → LinkKey → Ordering :=
  compareLex (compareOn (·.dist)) (compareLex (compareOn (·.rnss)) (compareOn (·.state)))

instance : Ord LinkKey := ⟨linkCmp⟩

@[ext] structure RelayKey where
  node : Nat
  link : LinkKey
deriving DecidableEq

/-- `h2span_relay_cmp` -/
def relayCmp : RelayKey → RelayKey → Ordering :=
  compareLex (compareOn (·.node)) (compareOn (·.link))

def Link.key (lk : Link) : LinkKey := ⟨lk.span.dist, lk.span.rnss, lk.state⟩

namespace Topo

def clusterKey (s : Topo) (k : Nat) : Option ClusterId := (s.clusters k).map (·.id)

def nodeKey (s : Topo) (n : Nat) : Option NodeId := (s.nodes n).map (·.id)

def linkKey (s : Topo) (l : Nat) : Option LinkKey := (s.links l).map (·.key)

/-- `relay->source_rt->any.link` -/
def sourceLink (s : Topo) (r : Nat) : Option Nat := do
  let relay ← s.relays r
  let _ ← s.states relay.sourceRt
  match s.any relay.sourceRt with
  | .link l => some l
  | _ => none

def relayKey (s : Topo) (r : Nat) : Option RelayKey := do
  let lk ← s.links (← s.sourceLink r)
  some ⟨lk.node, lk.key⟩

end Topo

/-- A loop over a tree or a queue. -/
def forEach (f : Nat → Topo → Option Topo) : List Nat → Topo → Option Topo
  | [], s => some s
  | x :: xs, s => (f x s).bind (forEach f xs)

/-! ## Relays -/

/-- `dmsg_relay_delete`; the reply that ends the transaction leaves it to the peer to end it
too. -/
def relayDelete (r : Nat) (s : Topo) : Option Topo := do
  let relay ← s.relays r
  let _ ← s.conns relay.conn
  let l ← s.sourceLink r
  let _ ← s.links l
  let _ ← s.states relay.targetRt
  some { s with
    connTree := update s.connTree relay.conn ((s.connTree relay.conn).erase r)
    relayq := update s.relayq l ((s.relayq l).erase r)
    any := update s.any relay.targetRt .null
    relays := update s.relays r none }

section Scan

variable (rnss : BitVec 32) (addr : Topo → Nat × Nat)

/-- `dmsg_generate_relay`; `addr` gives the addresses of the relay and of its transaction. -/
def generateRelay (c l : Nat) (s : Topo) : Option (Nat × Topo) := do
  let conn ← s.conns c
  let slink ← s.links l
  let cst ← s.states conn.state
  let r := (addr s).1
  let t := (addr s).2
  let sent := { slink.span with
    dist := slink.span.dist + 1
    rnss := slink.span.rnss + rnss }
  let s := { s with
    relays := update s.relays r (some ⟨c, slink.state, t⟩)
    states := update s.states t (some ⟨cst.iocom, .lnkRelay, some sent⟩)
    any := update s.any t (.relay r)
    top := max s.top (max (r + 1) (t + 1)) }
  let tree ← OrdTree.insert relayCmp s.relayKey r (s.connTree c)
  some (r, { s with
    connTree := update s.connTree c tree
    relayq := update s.relayq l (s.relayq l ++ [r]) })

/-- The filters of `dmsg_relay_scan_specific`: `same` says that the link came in on the same
connection, `peerId` is the one of its cluster. -/
def filter (lconn : LnkConn) (lspan : LnkSpan) (same : Bool) (peerId : Uuid) : Option Bool :=
  if lspan.dist > spanMaxdist then some false
  else if same then some false
  else if lspan.peerType.toNat ≥ 64 then none
  else if 1#64 <<< lspan.peerType.toNat &&& lconn.peerMask = 0 then some false
  else if lconn.peerType = peerClient ∧ lspan.peerType = peerClient then some false
  else if lconn.peerType = peerClient ∧ lconn.peerId ≠ 0 ∧ peerId ≠ lconn.peerId then some false
  else some true

def accepts (s : Topo) (conn : Conn) (slink : Link) : Option Bool := do
  let lst ← s.states slink.state
  let cst ← s.states conn.state
  let node ← s.nodes slink.node
  let cls ← s.clusters node.cls
  filter conn.lnkConn slink.span (lst.iocom = cst.iocom) cls.id.peerId

/-- The relay that `dmsg_relay_scan_cmp` finds first in a tree. -/
def firstRelay (s : Topo) (node : Nat) : List Nat → Option (Option Nat)
  | [] => some none
  | r :: rs => do
      let key ← s.relayKey r
      if key.node = node then some (some r) else firstRelay s node rs

/-- The relay at hand is the one of the link. -/
def matchesLink (s : Topo) (l : Nat) : Option Nat → Option Bool
  | none => some false
  | some r => (s.sourceLink r).map fun l' => decide (l' = l)

/-- The assertion before a relay is made: the relay at hand is not better than the link. -/
def notBetter (s : Topo) (slink : Link) : Option Nat → Option Bool
  | none => some true
  | some r => (s.relayKey r).map fun key =>
      decide (key.node ≠ slink.node ∨ key.link.dist ≥ slink.span.dist)

/-- The links of a node, the best one first; the result is the first relay in excess. -/
def scanLinks (c : Nat) : List Nat → Nat → Option Nat → Topo → Option (Option Nat × Topo)
  | [], _, relay, s => some (relay, s)
  | l :: ls, count, relay, s =>
      if count + 1 ≥ 2 then some (relay, s)
      else do
        let conn ← s.conns c
        let slink ← s.links l
        if ← matchesLink s l relay then
          scanLinks c ls (count + 1) (relay.bind (OrdTree.next (s.connTree c))) s
        else if !(← accepts s conn slink) then some (relay, s)
        else if !(← notBetter s slink relay) then none
        else do
          let (r, s) ← generateRelay rnss addr c l s
          scanLinks c ls (count + 1) (OrdTree.next (s.connTree c) r) s

/-- The relays in excess; the next one is looked up before a relay goes. -/
def deleteExtras (node : Nat) : List Nat → Topo → Option Topo
  | [], s => some s
  | r :: rs, s => do
      let key ← s.relayKey r
      if key.node = node then (relayDelete r s).bind (deleteExtras node rs) else some s

/-- `dmsg_relay_scan_specific` -/
def relayScanSpecific (node c : Nat) (s : Topo) : Option Topo := do
  let _ ← s.conns c
  let _ ← s.nodes node
  let relay ← firstRelay s node (s.connTree c)
  let (relay, s) ← scanLinks rnss addr c (s.nodeTree node) 0 relay s
  match relay with
  | none => some s
  | some r => deleteExtras node (OrdTree.startingAt (s.connTree c) r) s

/-- `dmsg_relay_scan(NULL, NULL)` -/
def relayScan (s : Topo) : Option Topo :=
  forEach (fun k s => do
    let _ ← s.clusters k
    forEach (fun n s => forEach (relayScanSpecific rnss addr n) s.connq s) (s.clsTree k) s)
    s.clusterTree s

end Scan

/-! ## `LNK_CONN` -/

/-- `dmsg_lnk_conn` at the start of the transaction `a`; the conn gets the address `c`. -/
def lnkConnCreate (a iocom c : Nat) (lnkConn : LnkConn) (s : Topo) : Option Topo :=
  if (s.iocomConn iocom).isSome then none
  else some { s with
    states := update s.states a (some ⟨iocom, .lnkConn, none⟩)
    any := update s.any a (.conn c)
    iocomConn := update s.iocomConn iocom (some c)
    conns := update s.conns c (some ⟨a, lnkConn⟩)
    connTree := update s.connTree c []
    connq := s.connq ++ [c]
    top := max s.top (a + 1) }

/-- `dmsg_lnk_conn` at the end of the transaction `a`; the relays go one by one, from the
root of the tree. -/
def lnkConnDelete (a : Nat) (s : Topo) : Option Topo := do
  let st ← s.states a
  match s.any a with
  | .conn c =>
      let _ ← s.conns c
      let s ← forEach relayDelete (s.connTree c) s
      some { s with
        states := update s.states a none
        any := update s.any a .null
        iocomConn := update s.iocomConn st.iocom none
        conns := update s.conns c none
        connq := s.connq.erase c }
  | _ => none

/-! ## `LNK_SPAN` -/

/-- The cluster of a SPAN, at the address `k` if it is new. -/
def spanCluster (k : Nat) (span : LnkSpan) (s : Topo) : Option (Nat × Topo) := do
  let id : ClusterId := ⟨span.peerType, span.peerId, span.peerLabel⟩
  match ← OrdTree.find clusterCmp s.clusterKey id s.clusterTree with
  | some cls => some (cls, s)
  | none =>
      let s := { s with
        clusters := update s.clusters k (some ⟨id, 0⟩)
        clsTree := update s.clsTree k [] }
      let tree ← OrdTree.insert clusterCmp s.clusterKey k s.clusterTree
      some (k, { s with clusterTree := tree })

/-- The node of a SPAN in its cluster, at the address `n` if it is new. -/
def spanNode (cls n : Nat) (span : LnkSpan) (s : Topo) : Option (Nat × Topo) := do
  let id : NodeId := ⟨span.pfsLabel, span.pfsId⟩
  match ← OrdTree.find nodeCmp s.nodeKey id (s.clsTree cls) with
  | some node => some (node, s)
  | none =>
      let s := { s with
        nodes := update s.nodes n (some ⟨cls, id, span.pfsType⟩)
        nodeTree := update s.nodeTree n [] }
      let tree ← OrdTree.insert nodeCmp s.nodeKey n (s.clsTree cls)
      some (n, { s with clsTree := update s.clsTree cls tree })

/-- `dmsg_lnk_span` at the start of the transaction `a`; `k`, `n` and `l` are the addresses
for a new cluster, a new node and the link. -/
def lnkSpanCreate (a iocom k n l : Nat) (span : LnkSpan) (s : Topo) : Option Topo := do
  let (cls, s) ← spanCluster k span s
  let (node, s) ← spanNode cls n span s
  let s := { s with
    states := update s.states a (some ⟨iocom, .lnkSpan, none⟩)
    any := update s.any a (.link l)
    links := update s.links l (some ⟨a, node, span⟩)
    relayq := update s.relayq l []
    top := max s.top (a + 1) }
  let tree ← OrdTree.insert linkCmp s.linkKey l (s.nodeTree node)
  some { s with nodeTree := update s.nodeTree node tree }

/-- The topology without the node, when its last link is gone. -/
def freeNode (n cls : Nat) (s : Topo) : Option Topo := do
  let cluster ← s.clusters cls
  let s := { s with
    clsTree := update s.clsTree cls ((s.clsTree cls).erase n)
    nodes := update s.nodes n none }
  if s.clsTree cls = [] ∧ cluster.refs = 0 then
    some { s with
      clusterTree := s.clusterTree.erase cls
      clusters := update s.clusters cls none }
  else some s

/-- `dmsg_lnk_span` at the end of the transaction `a`. -/
def lnkSpanDelete (a : Nat) (s : Topo) : Option Topo := do
  let _ ← s.states a
  match s.any a with
  | .link l =>
      let slink ← s.links l
      let node ← s.nodes slink.node
      if slink.state ≠ a then none
      else do
        let s ← forEach relayDelete (s.relayq l) s
        let s := { s with
          nodeTree := update s.nodeTree slink.node ((s.nodeTree slink.node).erase l)
          states := update s.states a none
          any := update s.any a .null
          links := update s.links l none }
        if s.nodeTree slink.node = [] then freeNode slink.node node.cls s else some s
  | _ => none

/-- `dmsg_lnk_relay`: the peer ends the transaction `a` of a relay. -/
def lnkRelayDelete (a : Nat) (s : Topo) : Option Topo := do
  let _ ← s.states a
  match s.any a with
  | .relay r => do
      let s ← relayDelete r s
      some { s with states := update s.states a none }
  | .null => some { s with states := update s.states a none }
  | _ => none

/-! ## A step -/

/-- A transaction is opened, and ended by the same message if `delete` says so; the other
side ends a transaction; or the relays are brought up to date.  Addresses of new objects are
part of the event. -/
inductive Ev
  | connOpen (a iocom c : Nat) (lnkConn : LnkConn) (delete : Bool)
  | spanOpen (a iocom k n l : Nat) (span : LnkSpan) (delete : Bool)
  | delete (a : Nat) (reply : Bool)
  | scan (addr : Topo → Nat × Nat)

/-- The handler for the end of a transaction.  The ends of the two transactions that peers
open are ignored when they are replies. -/
def delete (a : Nat) (reply : Bool) (s : Topo) : Option Topo := do
  let st ← s.states a
  match st.func with
  | .lnkConn => if reply then some s else lnkConnDelete a s
  | .lnkSpan => if reply then some s else lnkSpanDelete a s
  | .lnkRelay => if reply then lnkRelayDelete a s else none

def step (rnss : BitVec 32) (s : Topo) : Ev → Option Topo
  | .connOpen a iocom c lnkConn del => do
      let s ← lnkConnCreate a iocom c lnkConn s
      if del then lnkConnDelete a s else some s
  | .spanOpen a iocom k n l span del => do
      let s ← lnkSpanCreate a iocom k n l span s
      if del then lnkSpanDelete a s else some s
  | .delete a reply => delete a reply s
  | .scan addr => relayScan rnss addr s

end Hammer2.Span
