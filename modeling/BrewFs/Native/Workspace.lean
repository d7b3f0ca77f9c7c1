import BrewFs.Library.Guard
import Mathlib.Tactic.Ring

/-! The control records of one workspace and the calls that move its base. A call decides on the
store as it has `seen` it, at any earlier time, and ends with one transaction on the store as it is:
the rows that the transaction compares must still be those that were read. -/

namespace BrewFs.Native

open Guard (need check)
open Function (update)

inductive LifecycleError where
  | conflict | operationIdMismatch | invalidState | retention | limitExceeded | record
  deriving DecidableEq

structure HeadRef where
  (headId epoch commitSeq : Nat)
  deriving DecidableEq

structure HeadState where
  head : HeadRef
  (writerGeneration writeDomainId : Nat)
  deriving DecidableEq

/-- `next_commit`: the sequence number wraps. -/
def HeadState.nextCommit (h : HeadState) : HeadState :=
  { h with head := { h.head with commitSeq := (h.head.commitSeq + 1) % 2 ^ 64 } }

structure ObjectRef where
  (objectId fullHash : Nat)
  deriving DecidableEq

structure SnapshotRef where
  (volumeId logicalRevision : Nat)
  manifest : ObjectRef
  deriving DecidableEq

/-- Retained forever; `source_snapshot` is the snapshot in it. -/
structure PublishedRevision extends SnapshotRef where
  (storageViewId publicationId : Nat)
  retainedAtNs : Int
  evidenceRoot : Nat
  deriving DecidableEq

inductive WorkspaceHeadState where
  | running | freezing | sealing | discarding | closed
  deriving DecidableEq

/-- The view of the workspace. -/
structure WorkspaceHead where
  workspaceId : Nat
  head : HeadRef
  base : SnapshotRef
  (writerGeneration writeDomainId visibleDeltaCount openOrphanCount : Nat)
  orphanCarryDigest : Option Nat
  state : WorkspaceHeadState
  entityVersion : Nat
  deriving DecidableEq

inductive PublicationPhase where
  | prepare | quiesced | dataDrained | candidateVerified | retentionPrepared | publishedRetained
  | completed | aborted
  deriving DecidableEq

structure PublicationResult where
  snapshot : SnapshotRef
  newHead : Option HeadRef
  publicationId : Nat
  deriving DecidableEq

/-- A journal of the workspace. -/
structure PublicationJournal where
  expectedHead : Option HeadRef
  expectedBase : Option SnapshotRef
  ownerGeneration : Nat
  phase : PublicationPhase
  acceptedTicketEnd : Nat
  drainPlan : Option Nat
  (batchCount completedCount : Nat)
  fixedCommitSeq : Option Nat
  candidate : Option SnapshotRef
  (verificationEvidence retentionEvidence : Option Nat)
  committedResult : Option PublicationResult
  deriving DecidableEq

/-- What is recorded of a fork or a fast-forward. -/
structure ForkOperation where
  (digest domainId : Nat)

structure MutationResult where
  (payloadDigest inode : Nat)
  head : HeadRef

structure Store where
  deleted : Bool
  head : Option HeadState
  view : Option WorkspaceHead
  forkBase : Option SnapshotRef
  writerLease : Bool
  journal : Nat → Option PublicationJournal
  /-- Published revisions by their `StorageViewId`. -/
  revision : Nat → Option PublishedRevision
  publication : Nat → Option Nat
  forkOperation : Nat → Option ForkOperation
  mutation : Nat → Option MutationResult
  /-- The ownership domains that exist. -/
  domain : Nat → Bool

structure PublicationRequest where
  (operationId publicationId : Nat)
  expectedHead : HeadState
  expectedView : WorkspaceHead
  newHeadId : Nat
  candidate : SnapshotRef
  publicationEvidence : Nat
  retainedAtNs : Int
  /-- What the checks of manifest, inventory, domains, sources and key-value base say. -/
  verified : Bool

structure ForkRequest where
  (operationId ownerGeneration newHeadId newDomainId : Nat)
  source : PublishedRevision

structure FastForwardRequest where
  operationId : Nat
  expectedHead : HeadState
  expectedView : WorkspaceHead
  expectedForkBase : SnapshotRef
  source : PublishedRevision
  newHeadId : Nat

structure CommitRequest where
  operationId : Nat
  expectedHead : HeadState
  (payloadDigest inode : Nat)
  /-- What the checks of the domain, the inode's order, its extents and the objects say. -/
  accepted : Bool

/-- The ids of volume and workspace, and the digests of requests. -/
structure Env where
  (volumeId workspaceId : Nat)
  publicationDigest : PublicationRequest → Nat
  forkDigest : ForkRequest → Nat
  fastForwardDigest : FastForwardRequest → Nat

/-- `checked_add(1)` -/
def checkedSucc (n : Nat) : Except LifecycleError Nat :=
  if n + 1 < 2 ^ 64 then .ok (n + 1) else .error .limitExceeded

def nextHeadRef (current : HeadRef) (newHeadId : Nat) : Except LifecycleError HeadRef := do
  let epoch ← checkedSucc current.epoch
  pure ⟨newHeadId, epoch, 0⟩

variable (env : Env) (seen s : Store)

def forkFromPublished (r : ForkRequest) :
    Except LifecycleError ((HeadState × WorkspaceHead) × Store) := do
  match seen.forkOperation r.operationId with
  | some operation =>
    check (operation.digest = env.forkDigest r) .operationIdMismatch
    let head ← need seen.head .record
    let view ← need seen.view .record
    check (view.writeDomainId = operation.domainId) .record
    pure ((head, view), s)
  | none =>
    check (r.source.volumeId = env.volumeId ∧ r.source.storageViewId = r.source.manifest.fullHash)
      .retention
    check (seen.revision r.source.storageViewId = some r.source) .retention
    check (r.newDomainId ≠ 0 ∧ env.workspaceId ≠ 0 ∧ r.newHeadId ≠ 0 ∧ r.ownerGeneration ≠ 0)
      .invalidState
    let snapshot := r.source.toSnapshotRef
    let head : HeadState := ⟨⟨r.newHeadId, 1, 0⟩, r.ownerGeneration, r.newDomainId⟩
    let view : WorkspaceHead :=
      ⟨env.workspaceId, head.head, snapshot, r.ownerGeneration, r.newDomainId, 0, 0, none, .running,
        1⟩
    check (s.revision r.source.storageViewId = some r.source ∧
      s.forkOperation r.operationId = none ∧
      s.head = none ∧ s.view = none ∧ s.domain r.newDomainId = false ∧ s.forkBase = none) .conflict
    pure ((head, view), { s with
      head := some head, view := some view, forkBase := some snapshot
      domain := update s.domain r.newDomainId true
      forkOperation := update s.forkOperation r.operationId
        (some ⟨env.forkDigest r, r.newDomainId⟩) })

inductive CommitOutcome where
  | committed (result : MutationResult)
  | alreadyCommitted (result : MutationResult)

/-- `commit_uploaded_slice`, without the rows of inodes and objects; the view stays. -/
def commitUploadedSlice (r : CommitRequest) : Except LifecycleError (CommitOutcome × Store) := do
  check (seen.deleted = false) .invalidState
  match seen.mutation r.operationId with
  | some recorded =>
    check (recorded.payloadDigest = r.payloadDigest ∧ recorded.inode = r.inode) .operationIdMismatch
    pure (.alreadyCommitted recorded, s)
  | none =>
    let head ← need seen.head .conflict
    check (head = r.expectedHead) .conflict
    check (r.accepted = true) .conflict
    let result : MutationResult := ⟨r.payloadDigest, r.inode, head.nextCommit.head⟩
    check (s.deleted = false ∧ s.head = some head ∧ s.mutation r.operationId = none) .conflict
    pure (.committed result, { s with
      head := some head.nextCommit
      mutation := update s.mutation r.operationId (some result) })

inductive PublicationOutcome where
  | published (result : PublicationResult)
  | alreadyPublished (result : PublicationResult)

def publishCandidate (r : PublicationRequest) :
    Except LifecycleError (PublicationOutcome × Store) := do
  match seen.publication r.operationId with
  | some digest =>
    check (digest = env.publicationDigest r) .operationIdMismatch
    let journal ← need (seen.journal r.operationId) .record
    check (journal.phase = .publishedRetained ∨ journal.phase = .completed) .record
    let result ← need journal.committedResult .record
    pure (.alreadyPublished result, s)
  | none =>
    check (r.newHeadId ≠ 0 ∧ r.publicationId ≠ 0) .invalidState
    check (r.verified = true ∧ r.candidate.volumeId = env.volumeId) .retention
    let journal ← need (seen.journal r.operationId) .invalidState
    check (journal.phase = .retentionPrepared ∧
      journal.ownerGeneration = r.expectedHead.writerGeneration ∧
      journal.expectedHead = some r.expectedHead.head ∧
      journal.expectedBase = some r.expectedView.base ∧
      journal.fixedCommitSeq = some r.expectedHead.head.commitSeq ∧
      journal.verificationEvidence ≠ none ∧ journal.candidate = some r.candidate ∧
      journal.retentionEvidence = some r.publicationEvidence) .invalidState
    let head ← need seen.head .invalidState
    let view ← need seen.view .invalidState
    check (head = r.expectedHead ∧ view = r.expectedView ∧ view.state = .sealing ∧
      view.head = head.head ∧ view.writeDomainId = head.writeDomainId ∧
      view.writerGeneration = head.writerGeneration) .conflict
    let newHead ← nextHeadRef head.head r.newHeadId
    let result : PublicationResult := ⟨r.candidate, some newHead, r.publicationId⟩
    let storageViewId := r.candidate.manifest.fullHash
    let version ← checkedSucc view.entityVersion
    check (s.publication r.operationId = none ∧ s.journal r.operationId = some journal ∧
      s.head = some head ∧ s.view = some view ∧ s.revision storageViewId = none) .conflict
    pure (.published result, { s with
      head := some { head with head := newHead }
      view := some { view with
        head := newHead, base := r.candidate, visibleDeltaCount := 0, state := .running
        entityVersion := version }
      journal := update s.journal r.operationId
        (some { journal with phase := .publishedRetained, committedResult := some result })
      revision := update s.revision storageViewId (some { r.candidate with
        storageViewId := storageViewId, publicationId := r.publicationId
        retainedAtNs := r.retainedAtNs, evidenceRoot := r.publicationEvidence })
      publication := update s.publication r.operationId (some (env.publicationDigest r)) })

/-- The lease and the fork base are read and not compared again. -/
def fastForward (r : FastForwardRequest) :
    Except LifecycleError ((HeadState × WorkspaceHead) × Store) := do
  match seen.forkOperation r.operationId with
  | some operation =>
    check (operation.digest = env.fastForwardDigest r) .operationIdMismatch
    let head ← need seen.head .record
    let view ← need seen.view .record
    check (head.writeDomainId = operation.domainId ∧ view.writeDomainId = operation.domainId)
      .record
    pure ((head, view), s)
  | none =>
    let head ← need seen.head .invalidState
    let view ← need seen.view .invalidState
    check (head = r.expectedHead ∧ view = r.expectedView) .conflict
    check (view.visibleDeltaCount = 0 ∧ view.openOrphanCount = 0 ∧ view.state = .running ∧
      seen.writerLease = false) .conflict
    let forkBase ← need seen.forkBase .invalidState
    check (forkBase = r.expectedForkBase ∧ view.base = forkBase) .conflict
    check (seen.revision r.source.storageViewId = some r.source) .retention
    check (r.source.volumeId = env.volumeId ∧ r.source.storageViewId = r.source.manifest.fullHash)
      .retention
    check (r.newHeadId ≠ 0) .invalidState
    let newHead ← nextHeadRef head.head r.newHeadId
    let version ← checkedSucc view.entityVersion
    let next := { head with head := newHead }
    let newView := { view with
      head := newHead, base := r.source.toSnapshotRef, entityVersion := version }
    check (s.forkOperation r.operationId = none ∧ s.head = some head ∧ s.view = some view ∧
      s.revision r.source.storageViewId = some r.source) .conflict
    pure ((next, newView), { s with
      head := some next, view := some newView
      forkOperation := update s.forkOperation r.operationId
        (some ⟨env.fastForwardDigest r, head.writeDomainId⟩) })

end BrewFs.Native
