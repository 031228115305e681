import Khora.Lib.Separated
import Khora.Accel.CharClass

/-!
# The namespaces of the adapters' tenants

Three adapters derive the namespace of a tenant from two names, with `uuid5` on the names joined
by a colon. `uuid5` itself is a parameter.

* `tenants_apart_iff` — two tenants of one adapter share no namespace, unless the first name of
  one holds a colon behind the first name of the other.
-/

namespace Khora

/-! ## The three derivations -/

/-- `uuid5` and the two standard roots. -/
structure Uuid5 (U : Type) where
  namespaceDns : U
  namespaceOid : U
  uuid5 : U → List Char → U

section Derivations

local instance lawfulUserId : LawfulBEq (List Char) := inferInstance

variable {U : Type} (u : Uuid5 U) (lower : List Char → List Char)

inductive UserIdError where
  | whitespace
  | banned
  | tooShort
  deriving DecidableEq, Repr

def minUserIdLen : ℕ := 8

def bannedUserIds : List (List Char) :=
  ["".toList, "default".toList, "anon".toList, "anonymous".toList, "user".toList, "test".toList]

/-- `_validate_user_id` -/
def validateUserId (userId : List Char) : Except UserIdError Unit :=
  if strip userId ≠ userId then .error .whitespace
  else if lower userId ∈ bannedUserIds then .error .banned
  else if userId.length < minUserIdLen then .error .tooShort
  else .ok ()

/-- What `KhoraStore` is constructed with: the root is any text. -/
@[ext]
structure LangGraphTenant where
  namespaceRoot : List Char
  userId : List Char
  valid : validateUserId lower userId = .ok ()

def langGraphRoot : U := u.uuid5 u.namespaceDns "khora.integrations.langgraph.v1".toList

/-- `namespace_uuid` of the LangGraph adapter: `f"{namespace_root}:{user_id}"` -/
def langGraphNamespaceUuid (namespaceRoot userId : List Char) : U :=
  u.uuid5 (langGraphRoot u) (namespaceRoot ++ ":".toList ++ userId)

structure AdkTenant where
  appName : List Char
  userId : List Char
  deriving DecidableEq

def adkRoot : U := u.uuid5 u.namespaceDns "khora.integrations.google_adk.v1".toList

/-- `namespace_uuid` of the ADK adapter: `f"adk:{app_name}:{user_id}"` -/
def adkNamespaceUuid (appName userId : List Char) : U :=
  u.uuid5 (adkRoot u) ("adk:".toList ++ appName ++ ":".toList ++ userId)

structure HermesTenant where
  agentIdentity : List Char
  userId : Option (List Char)
  deriving DecidableEq

/-- `user_id or ''` -/
def HermesTenant.user (t : HermesTenant) : List Char := t.userId.getD []

def hermesRoot : U := u.uuid5 u.namespaceOid "khora.integrations.hermes".toList

/-- `f"hermes:{agent_identity}:{user_id or ''}"` -/
def deriveNamespaceUuid (agentIdentity : List Char) (userId : Option (List Char)) : U :=
  u.uuid5 (hermesRoot u) ("hermes:".toList ++ agentIdentity ++ ":".toList ++ userId.getD [])

end Derivations

/-! ## When two tenants are told apart -/

/-- The first name of the one tenant is the first name of the other, a colon and `w`, while the
user of the other is `w`, a colon and the user of the one. -/
def ColonShift (first user first' user' : List Char) : Prop :=
  ∃ w, first' = first ++ ':' :: w ∧ user = w ++ ':' :: user'

/-- Neither tenant's names are the other's with the colon moved. -/
def ColonApart (first user first' user' : List Char) : Prop :=
  ¬ ColonShift first user first' user' ∧ ¬ ColonShift first' user' first user

theorem colonShift_iff {first user first' user' : List Char} :
    ColonShift first user first' user' ↔ Separated.Shifts [':'] (first, user) (first', user') := by
  rw [Separated.shifts_singleton_iff]
  rfl

theorem eq_of_colon_eq_iff {first user first' user' : List Char} :
    (first ++ ":".toList ++ user = first' ++ ":".toList ++ user' →
      (first, user) = (first', user')) ↔ ColonApart first user first' user' := by
  unfold ColonApart
  rw [colonShift_iff, colonShift_iff, ← not_or]
  exact Separated.eq_of_pair_eq_iff (p := (first, user)) (q := (first', user'))

section Apart

variable {U : Type} {u : Uuid5 U}

/-- Behind a fixed start, names are told apart as they are without it. -/
theorem uuid5_start_iff (hinj : ∀ root, Function.Injective (u.uuid5 root)) (root : U)
    (start first user first' user' : List Char) :
    u.uuid5 root (start ++ first ++ ":".toList ++ user) =
        u.uuid5 root (start ++ first' ++ ":".toList ++ user') ↔
      first ++ ":".toList ++ user = first' ++ ":".toList ++ user' := by
  rw [(hinj root).eq_iff]
  simp only [List.append_assoc, List.append_cancel_left_eq]

theorem langGraph_eq_iff (hinj : ∀ root, Function.Injective (u.uuid5 root))
    {lower : List Char → List Char} (p q : LangGraphTenant lower) :
    (langGraphNamespaceUuid u p.namespaceRoot p.userId =
        langGraphNamespaceUuid u q.namespaceRoot q.userId → p = q) ↔
      ColonApart p.namespaceRoot p.userId q.namespaceRoot q.userId := by
  rw [← eq_of_colon_eq_iff, LangGraphTenant.ext_iff, Prod.mk.injEq]
  unfold langGraphNamespaceUuid
  rw [(hinj _).eq_iff]

theorem adk_eq_iff (hinj : ∀ root, Function.Injective (u.uuid5 root)) (p q : AdkTenant) :
    (adkNamespaceUuid u p.appName p.userId = adkNamespaceUuid u q.appName q.userId → p = q) ↔
      ColonApart p.appName p.userId q.appName q.userId := by
  rw [← eq_of_colon_eq_iff, Prod.mk.injEq]
  unfold adkNamespaceUuid
  rw [uuid5_start_iff hinj]
  cases p
  cases q
  simp only [AdkTenant.mk.injEq]

theorem hermes_eq_iff (hinj : ∀ root, Function.Injective (u.uuid5 root)) (p q : HermesTenant) :
    (deriveNamespaceUuid u p.agentIdentity p.userId = deriveNamespaceUuid u q.agentIdentity q.userId →
        p.agentIdentity = q.agentIdentity ∧ p.user = q.user) ↔
      ColonApart p.agentIdentity p.user q.agentIdentity q.user := by
  rw [← eq_of_colon_eq_iff, Prod.mk.injEq]
  unfold deriveNamespaceUuid
  rw [uuid5_start_iff hinj]
  rfl

/-- **Two tenants of one adapter share no namespace, unless a colon moves between their names.** -/
theorem tenants_apart_iff (u : Uuid5 U) (hinj : ∀ root, Function.Injective (u.uuid5 root))
    (lower : List Char → List Char) :
    (∀ p q : LangGraphTenant lower,
      (langGraphNamespaceUuid u p.namespaceRoot p.userId =
          langGraphNamespaceUuid u q.namespaceRoot q.userId → p = q) ↔
        ColonApart p.namespaceRoot p.userId q.namespaceRoot q.userId) ∧
    (∀ p q : AdkTenant,
      (adkNamespaceUuid u p.appName p.userId = adkNamespaceUuid u q.appName q.userId → p = q) ↔
        ColonApart p.appName p.userId q.appName q.userId) ∧
    ∀ p q : HermesTenant,
      (deriveNamespaceUuid u p.agentIdentity p.userId =
          deriveNamespaceUuid u q.agentIdentity q.userId →
        p.agentIdentity = q.agentIdentity ∧ p.user = q.user) ↔
        ColonApart p.agentIdentity p.user q.agentIdentity q.user :=
  ⟨langGraph_eq_iff hinj, adk_eq_iff hinj, hermes_eq_iff hinj⟩

end Apart

/-! ## A colon in the user -/

/-- A derivation that keeps its root and its text. -/
def plainUuid5 : Uuid5 (List Char) where
  namespaceDns := "dns".toList
  namespaceOid := "oid".toList
  uuid5 root name := root ++ name

theorem plainUuid5_injective (root : List Char) : Function.Injective (plainUuid5.uuid5 root) :=
  List.append_right_injective root

/-- `str.lower` on ASCII letters -/
def asciiLower (s : List Char) : List Char := s.map Char.toLower

def aliceOfApp : LangGraphTenant asciiLower := ⟨"app".toList, "tenant:alice-01".toList, by decide⟩

def aliceOfTenant : LangGraphTenant asciiLower := ⟨"app:tenant".toList, "alice-01".toList, by decide⟩

theorem tenants_share_namespace :
    (∀ root, Function.Injective (plainUuid5.uuid5 root)) ∧
    (langGraphNamespaceUuid plainUuid5 aliceOfApp.namespaceRoot aliceOfApp.userId =
        langGraphNamespaceUuid plainUuid5 aliceOfTenant.namespaceRoot aliceOfTenant.userId ∧
      aliceOfApp.userId ≠ aliceOfTenant.userId) ∧
    (adkNamespaceUuid plainUuid5 "app".toList "eu:alice".toList =
        adkNamespaceUuid plainUuid5 "app:eu".toList "alice".toList) ∧
    deriveNamespaceUuid plainUuid5 "agent".toList (some "eu:alice".toList) =
      deriveNamespaceUuid plainUuid5 "agent:eu".toList (some "alice".toList) :=
  ⟨plainUuid5_injective, by decide, by decide, by decide⟩

/-- Another tenant of the root. -/
def alexOfTenant : LangGraphTenant asciiLower := ⟨"app:tenant".toList, "alex:prod".toList, by decide⟩

theorem colonApart_app (region : List Char) {user user' : List Char} (h : user ≠ region ++ ':' :: user') :
    ColonApart "app".toList user ("app:".toList ++ region) user' := by
  constructor
  · rintro ⟨w, hfirst, huser⟩
    have hw : "app:".toList ++ region = "app:".toList ++ w := hfirst
    rw [← List.append_cancel_left hw] at huser
    exact h huser
  · rintro ⟨w, hfirst, -⟩
    have hlen := congrArg List.length hfirst
    simp at hlen

/-- Of two tenants with colons one pair is apart in all three adapters, and one is not. -/
theorem tenants_apart_app :
    (langGraphNamespaceUuid plainUuid5 aliceOfApp.namespaceRoot aliceOfApp.userId ≠
        langGraphNamespaceUuid plainUuid5 alexOfTenant.namespaceRoot alexOfTenant.userId ∧
      adkNamespaceUuid plainUuid5 "app".toList "eu:alice".toList ≠
        adkNamespaceUuid plainUuid5 "app:us".toList "alice".toList ∧
      deriveNamespaceUuid plainUuid5 "app".toList (some "eu:alice".toList) ≠
        deriveNamespaceUuid plainUuid5 "app:us".toList none) ∧
    ¬ ColonApart aliceOfApp.namespaceRoot aliceOfApp.userId aliceOfTenant.namespaceRoot
      aliceOfTenant.userId := by
  obtain ⟨hlang, hadk, hhermes⟩ := tenants_apart_iff plainUuid5 plainUuid5_injective asciiLower
  refine ⟨⟨fun h => ?_, fun h => ?_, fun h => ?_⟩, fun hapart => ?_⟩
  · have heq := (hlang aliceOfApp alexOfTenant).mpr (colonApart_app "tenant".toList (by decide)) h
    exact absurd (congrArg LangGraphTenant.userId heq) (by decide)
  · have heq := (hadk ⟨"app".toList, "eu:alice".toList⟩ ⟨"app:us".toList, "alice".toList⟩).mpr
      (colonApart_app "us".toList (by decide)) h
    exact absurd heq (by decide)
  · have heq := (hhermes ⟨"app".toList, some "eu:alice".toList⟩ ⟨"app:us".toList, none⟩).mpr
      (colonApart_app "us".toList (by decide)) h
    exact absurd heq.1 (by decide)
  · have heq := (hlang aliceOfApp aliceOfTenant).mpr hapart (by decide)
    exact absurd (congrArg LangGraphTenant.userId heq) (by decide)

end Khora
