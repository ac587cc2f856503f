import Gem5Nvmain.Nvm.AddressTranslator

/- Page migration (`Migrator`, `CoinMigrator`).

  The migrator keeps the new channel of each migrated page and the state of its migration, under a key of the page;
  `translate` puts the new channel in place of the old one when the migration is done. A page here is what the decoder
  makes of an address, without its column.

  `CoinMigrator` is hooked on the memory system. A request from the slow memory starts a migration with some
  probability: the page of the request is promoted, and the victim, the page under a cursor that circles round the
  fast memory, is demoted. Both are read; when both reads are complete the addresses are swapped and both are written.
  A write that the controller refuses is tried again when some other request completes.

  The coin, the answers of the controllers and the order in which the requests complete are the environment's.
  `inFlight` are the migration requests in the memory; a request is told from another one by `id`, its pointer. The
  victim's key and the promotee's are numbers far below the word. The statistics are left out, and `Stop.outOfRange`
  is a step that the environment cannot take. -/
namespace Nvm
open Lib Function

/-- The counts of the decoder, and the promotion channel with its own parameters. -/
structure Geometry where
  channels : Nat
  banks : Nat
  ranks : Nat
  subarrays : Nat
  promotionChannel : Nat
  promotion_lt : promotionChannel < channels
  promoRanks : Nat
  promoBanks : Nat
  promoRows : Nat
  matHeight : Nat
  ranks_pos : 0 < promoRanks
  banks_pos : 0 < promoBanks
  subarrays_pos : 0 < promoRows / matHeight

structure Page where
  row : Nat
  bank : Nat
  rank : Nat
  channel : Nat
  subarray : Nat
  deriving DecidableEq, Repr

/-- The fields are below the counts of the decoder. -/
def Page.Within (g : Geometry) (p : Page) : Prop :=
  p.bank < g.banks ∧ p.rank < g.ranks ∧ p.channel < g.channels ∧ p.subarray < g.subarrays

instance (g : Geometry) (p : Page) : Decidable (p.Within g) :=
  inferInstanceAs (Decidable (_ ∧ _ ∧ _ ∧ _))

/-- `GetAddressKey`. -/
def Page.key (g : Geometry) (p : Page) : Nat :=
  p.row * g.banks * g.ranks * g.subarrays * g.channels + p.bank * g.ranks * g.subarrays * g.channels +
    p.rank * g.subarrays * g.channels + p.subarray * g.channels + p.channel

/-- `MigratorState`. -/
inductive MigrationState where
  | unknown
  | reading
  | buffered
  | writing
  | done
  deriving DecidableEq, Repr

structure Migrator where
  migrationMap : Nat → Option Nat := fun _ => none
  migrationState : Nat → Option MigrationState := fun _ => none
  migrating : Bool := false
  inputPage : Nat := 0
  outputPage : Nat := 0

namespace Migrator
variable (g : Geometry) (m : Migrator)

/-- `StartMigration`: the channels are swapped, and both pages are being read. -/
def startMigration (promotee demotee : Page) : Except Stop Migrator := do
  require (!m.migrating)
  pure {
    migrationMap := update (update m.migrationMap (promotee.key g) (some demotee.channel)) (demotee.key g) (some promotee.channel)
    migrationState := update (update m.migrationState (promotee.key g) (some .reading)) (demotee.key g) (some .reading)
    migrating := true
    inputPage := promotee.key g
    outputPage := demotee.key g }

/-- The state is new, and a migration is over when both of its pages are done. -/
def enter (key : Nat) (newState : MigrationState) : Migrator :=
  let states := update m.migrationState key (some newState)
  { m with
    migrationState := states
    migrating := if states m.inputPage = some .done ∧ states m.outputPage = some .done then false else m.migrating }

def setMigrationState (p : Page) (newState : MigrationState) : Except Stop Migrator :=
  match m.migrationState (p.key g) with
  | none => .error .assertFailed
  | some state => do
    require (decide (state ≠ newState))
    pure (m.enter (p.key g) newState)

/-- `if( issued ) SetMigrationState( p, MIGRATION_WRITING )`. -/
def writingIf (issued : Bool) (p : Page) : Except Stop Migrator :=
  if issued then m.setMigrationState g p .writing else .ok m

def isMigrated (p : Page) : Bool :=
  (m.migrationMap (p.key g)).isSome && decide (m.migrationState (p.key g) = some .done)

def isBuffered (p : Page) : Bool :=
  (m.migrationMap (p.key g)).isSome &&
    (decide (m.migrationState (p.key g) = some .buffered) || decide (m.migrationState (p.key g) = some .writing))

/-- `Translate`, of an address that the decoder places in the page `p`. -/
def translate (p : Page) : Page :=
  match m.migrationMap (p.key g) with
  | some channel => if m.migrationState (p.key g) = some .done then { p with channel } else p
  | none => p

end Migrator

/-- `MIG_READ_TAG` and `MIG_WRITE_TAG`. -/
inductive MigrationTag where
  | read
  | write
  deriving DecidableEq, Repr

structure MigrationRequest where
  id : Nat
  address : Page
  tag : MigrationTag
  deriving DecidableEq, Repr

structure CoinMigrator where
  migrator : Migrator := {}
  promoBuffered : Bool := false
  demoBuffered : Bool := false
  promoRequest : Option MigrationRequest := none
  demoRequest : Option MigrationRequest := none
  promotee : Page := ⟨0, 0, 0, 0, 0⟩
  demotee : Page := ⟨0, 0, 0, 0, 0⟩
  currentPromotionPage : Nat := 0
  inFlight : List MigrationRequest := []
  created : Nat := 0

/-- The hook is called before the request is issued, and after. -/
inductive HookType where
  | preIssue
  | postIssue
  deriving DecidableEq, Repr

/-- What the environment says of a request: the coin comes out for a migration, and the two reads can be issued. -/
structure Toss where
  coin : Bool
  promoIssuable : Bool := true
  demoIssuable : Bool := true
  deriving DecidableEq, Repr

namespace CoinMigrator
variable (g : Geometry) (s : CoinMigrator)

/-- The victim of `ChooseVictim`: the page under the cursor. -/
def victim (cursor : Nat) : Page :=
  let bankPage := cursor >>> mlog2 g.promoRanks
  let subarrayPage := bankPage >>> mlog2 g.promoBanks
  let subarrayCount := g.promoRows / g.matHeight
  { rank := cursor % g.promoRanks
    bank := bankPage % g.promoBanks
    subarray := subarrayPage % subarrayCount
    row := subarrayPage >>> mlog2 subarrayCount
    channel := g.promotionChannel }

def totalPromotionPages : Nat := g.promoRanks * g.promoBanks * g.promoRows

/-- `migrationPossible`. -/
def migrationPossible (address : Page) : Bool :=
  !s.migrator.migrating && !s.migrator.isMigrated g address && decide (address.channel ≠ g.promotionChannel)

/-- The reads of a migration; `NVMain::IssueCommand` translates their addresses again. -/
def issueReads : CoinMigrator :=
  let promo := ⟨s.created, s.migrator.translate g s.promotee, .read⟩
  let demo := ⟨s.created + 1, s.migrator.translate g s.demotee, .read⟩
  { s with
    promoRequest := some promo
    demoRequest := some demo
    inFlight := s.inFlight ++ [promo, demo]
    created := s.created + 2 }

/-- The part of `TryMigration` after the coin: the pages are chosen, and the migration starts or waits. -/
def migrate (address : Page) (atomic : Bool) (toss : Toss) : Except Stop CoinMigrator := do
  let demotee := victim g s.currentPromotionPage
  let s : CoinMigrator := { s with
    promotee := address
    demotee := demotee
    currentPromotionPage := (s.currentPromotionPage + 1) % totalPromotionPages g }
  require (!s.migrator.isMigrated g demotee)
  require (!s.migrator.isMigrated g address)
  if atomic then
    let m ← s.migrator.startMigration g address demotee
    let m ← m.setMigrationState g address .done
    let m ← m.setMigrationState g demotee .done
    pure { s with migrator := m }
  else if toss.promoIssuable && toss.demoIssuable then
    let m ← s.migrator.startMigration g address demotee
    pure (issueReads g { s with migrator := m })
  else pure s

/-- `TryMigration`, with what it returns: a request is dropped when its page is in the buffer. -/
def tryMigration (hook : HookType) (address : Page) (atomic : Bool) (toss : Toss) : Except Stop (CoinMigrator × Bool) :=
  match hook with
  | .preIssue => .ok (s, !s.migrator.isBuffered g address)
  | .postIssue =>
    if s.migrationPossible g address then do
      require (!s.demoBuffered && !s.promoBuffered)
      if toss.coin then
        let s ← s.migrate g address atomic toss
        pure (s, true)
      else pure (s, true)
    else .ok (s, true)

/-- Both pages are in the buffer: the addresses are swapped, and the writes are issued. -/
def issueWrites (promo demo : MigrationRequest) (demoIssued promoIssued : Bool) : Except Stop CoinMigrator := do
  let promoWrite : MigrationRequest := { promo with address := demo.address, tag := .write }
  let demoWrite : MigrationRequest := { demo with address := promo.address, tag := .write }
  let m ← s.migrator.writingIf g demoIssued demoWrite.address
  let m ← m.writingIf g promoIssued promoWrite.address
  pure { s with
    migrator := m
    promoRequest := some promoWrite
    demoRequest := some demoWrite
    inFlight := s.inFlight ++ (if demoIssued then [demoWrite] else []) ++ (if promoIssued then [promoWrite] else [])
    promoBuffered := !promoIssued
    demoBuffered := !demoIssued }

/-- A read is complete. The request is copied, as its owner deletes it. -/
def readComplete (r : MigrationRequest) (demoIssued promoIssued : Bool) : Except Stop CoinMigrator := do
  let m ← s.migrator.setMigrationState g r.address .buffered
  let isPromo := decide (s.promoRequest.map (·.id) = some r.id)
  let isDemo := decide (s.demoRequest.map (·.id) = some r.id)
  let bufferComplete := (isPromo && m.isBuffered g s.demotee) || (isDemo && m.isBuffered g s.promotee)
  require (isPromo || isDemo)
  let copy : MigrationRequest := { r with id := s.created }
  let s : CoinMigrator := { s with
    migrator := m
    promoRequest := if isPromo then some copy else s.promoRequest
    demoRequest := if isPromo then s.demoRequest else some copy
    created := s.created + 1 }
  if bufferComplete then
    match s.promoRequest, s.demoRequest with
    | some promo, some demo => s.issueWrites g promo demo demoIssued promoIssued
    | _, _ => .error .outOfRange
  else pure s

def writeComplete (r : MigrationRequest) : Except Stop CoinMigrator := do
  let m ← s.migrator.setMigrationState g r.address .done
  pure { s with migrator := m }

/-- Some other request completed: a write that was refused is tried again. -/
def otherComplete (promoIssued demoIssued : Bool) : CoinMigrator :=
  let promoNow := s.promoBuffered && promoIssued
  let demoNow := s.demoBuffered && demoIssued
  { s with
    inFlight := s.inFlight ++ (if promoNow then s.promoRequest.toList else []) ++ (if demoNow then s.demoRequest.toList else [])
    promoBuffered := s.promoBuffered && !promoIssued
    demoBuffered := s.demoBuffered && !demoIssued }

inductive Op where
  /-- The hook is called for a request to the page `page`. -/
  | request (page : Page) (hook : HookType) (atomic : Bool) (toss : Toss)
  /-- A migration request in flight completes; the answers are for the two writes. -/
  | complete (r : MigrationRequest) (demoIssued promoIssued : Bool)
  | otherComplete (promoIssued demoIssued : Bool)
  deriving DecidableEq, Repr

/-- `RequestComplete` of a migration request. -/
def complete (r : MigrationRequest) (demoIssued promoIssued : Bool) : Except Stop CoinMigrator :=
  match r.tag with
  | .read => s.readComplete g r demoIssued promoIssued
  | .write => s.writeComplete g r

def step (op : Op) : Except Stop CoinMigrator :=
  match op with
  | .request page hook atomic toss =>
    if page.Within g then do
      let r ← s.tryMigration g hook (s.migrator.translate g page) atomic toss
      pure r.1
    else .error .outOfRange
  | .complete r demoIssued promoIssued =>
    if r ∈ s.inFlight then complete g { s with inFlight := s.inFlight.erase r } r demoIssued promoIssued
    else .error .outOfRange
  | .otherComplete promoIssued demoIssued => .ok (s.otherComplete promoIssued demoIssued)

end CoinMigrator

end Nvm
