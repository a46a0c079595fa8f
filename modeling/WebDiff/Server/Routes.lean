import Mathlib.Data.List.Infix
import WebDiff.Model.HttpService

/-!
# Which handler gets a request

`GetApi` goes through an unordered map and matches the path of the request against every registered
path, so in general what it finds depends on the order of the map. Registered paths without a
wildcard and without a field match themselves only (`matchApi_eq`), and then the service is a plain
map from methods and paths to handlers: `GetApi` finds the handler of the last call of `AddApi` with
the method and the path of the request (`getApi_ofRoutes`).
-/

namespace WebDiff

variable {H : Type}

/-! ### Paths without wildcards and fields -/

/-- A registered path that can only match itself. -/
structure PlainPath (path : Bytes) : Prop where
  star : star ∉ path
  colon : ¬ [slash, colon] <:+: path
  brace : ¬ [slash, leftBrace] <:+: path

theorem PlainPath.tail {b : UInt8} {path : Bytes} (h : PlainPath (b :: path)) : PlainPath path where
  star := fun hmem => h.star (List.mem_cons_of_mem _ hmem)
  colon := fun hsub => h.colon (hsub.trans (List.suffix_cons b path).isInfix)
  brace := fun hsub => h.brace (hsub.trans (List.suffix_cons b path).isInfix)

/-- No field opens at the head of a plain path. -/
theorem PlainPath.not_field {b c : UInt8} {path : Bytes} (h : PlainPath (b :: c :: path)) :
    ¬ (b = slash ∧ (c = WebDiff.colon ∨ c = leftBrace)) := by
  have hsub : [b, c] <:+: b :: c :: path := ⟨[], path, rfl⟩
  intro hfield
  rcases hfield with ⟨rfl, rfl | rfl⟩
  · exact h.colon hsub
  · exact h.brace hsub

/-- A plain path matches itself, and nothing else. -/
theorem matchApi_eq {rounds : ℕ} {kp : Bytes} (h : PlainPath kp) (hrounds : kp.length < rounds)
    (vp : Bytes) (params : PathParams) :
    matchApi rounds kp vp params = if kp = vp then some params else none := by
  induction kp generalizing rounds vp with
  | nil =>
    cases rounds with
    | zero => exact absurd hrounds (Nat.not_lt_zero _)
    | succ rounds =>
      cases vp with
      | nil => rfl
      | cons v vp => rfl
  | cons k kp ih =>
    cases rounds with
    | zero => exact absurd hrounds (Nat.not_lt_zero _)
    | succ rounds =>
      cases vp with
      | nil => rfl
      | cons v vp =>
        have hstar : k ≠ star := fun hk => h.star (hk ▸ List.mem_cons_self)
        have hrest := ih h.tail (Nat.lt_of_succ_lt_succ hrounds) vp
        unfold matchApi
        rw [if_neg hstar]
        by_cases hv : k = v
        · subst hv
          simp only [ne_eq, not_true_eq_false, if_false, List.cons.injEq, true_and]
          cases kp with
          | nil => exact hrest
          | cons c kp =>
            dsimp only
            rw [if_neg h.not_field]
            exact hrest
        · have hne : k :: kp ≠ v :: vp := fun heq => hv (List.cons.inj heq).1
          rw [if_pos hv, if_neg hne]

/-! ### The handlers as a map -/

/-- The handler that is registered under a path and a method. -/
def registered (apiHandlers : ApiHandlers H) (path : Bytes) (method : HttpMethod) : Option H :=
  (apiHandlers.find? fun p => p.1 = path).bind fun p =>
    (p.2.find? fun m => m.1 = method).map Prod.snd

/-- Where all paths are plain, the loop looks the path up. -/
theorem getApiLoop_eq {apiHandlers : ApiHandlers H} (h : ∀ p ∈ apiHandlers, PlainPath p.1)
    (path : Bytes) (method : HttpMethod) :
    getApiLoop path method apiHandlers
      = (registered apiHandlers path method).map fun handler => (handler, []) := by
  induction apiHandlers with
  | nil => rfl
  | cons p rest ih =>
    have hrest := ih fun q hq => h q (List.mem_cons_of_mem _ hq)
    unfold getApiLoop registered
    rw [matchApi_eq (h p List.mem_cons_self) (Nat.lt_succ_self _)]
    by_cases hp : p.1 = path
    · simp only [hp, if_true, List.find?_cons, decide_true, Option.bind_some]
      cases p.2.find? fun m => m.1 = method with
      | none => rfl
      | some m => rfl
    · simp only [hp, if_false, List.find?_cons, decide_false]
      exact hrest

/-- What is found under a key that occurs once does not depend on the order. -/
theorem find?_perm {α K : Type} [DecidableEq K] {key : α → K} {xs ys : List α} (h : xs.Perm ys)
    (hkeys : (ys.map key).Nodup) (k : K) :
    (xs.find? fun x => key x = k) = ys.find? fun x => key x = k := by
  induction h with
  | nil => rfl
  | cons x hperm ih =>
    rw [List.map_cons, List.nodup_cons] at hkeys
    rw [List.find?_cons, List.find?_cons, ih hkeys.2]
  | swap x y xs =>
    simp only [List.map_cons, List.nodup_cons, List.mem_cons, not_or] at hkeys
    simp only [List.find?_cons]
    by_cases hx : key x = k
    · have hy : key y ≠ k := fun hy => hkeys.1.1 (hx.trans hy.symm)
      simp [hx, hy]
    · simp [hx]
  | trans hxy hyz ihxy ihyz =>
    exact (ihxy ((hyz.map key).nodup_iff.mpr hkeys)).trans (ihyz hkeys)

theorem find?_addMethod (method : HttpMethod) (handler : H) (methods : MethodHandlers H)
    (m : HttpMethod) :
    (addMethod method handler methods).find? (fun p => p.1 = m)
      = if m = method then some (method, handler) else methods.find? fun p => p.1 = m := by
  induction methods with
  | nil =>
    by_cases hm : m = method
    · simp [addMethod, hm]
    · simp [addMethod, hm, Ne.symm hm]
  | cons p rest ih =>
    unfold addMethod
    by_cases hp : p.1 = method
    · rw [if_pos hp]
      by_cases hm : m = method
      · simp [hm]
      · have hpm : p.1 ≠ m := fun he => hm (he.symm.trans hp)
        simp [hm, Ne.symm hm, hpm]
    · rw [if_neg hp, List.find?_cons, ih, List.find?_cons]
      by_cases hm : m = method
      · have hpm : p.1 ≠ m := fun he => hp (he.trans hm)
        simp [hm, hp]
      · simp [hm]

/-- One more call of `AddApi` changes what is found under its path and method. -/
theorem registered_addApi (path : Bytes) (method : HttpMethod) (handler : H)
    (apiHandlers : ApiHandlers H) (path' : Bytes) (method' : HttpMethod) :
    registered (addApi path method handler apiHandlers) path' method'
      = if path' = path ∧ method' = method then some handler
        else registered apiHandlers path' method' := by
  induction apiHandlers with
  | nil =>
    by_cases hpath : path' = path
    · by_cases hmethod : method' = method
      · simp [addApi, registered, hpath, hmethod]
      · simp [addApi, registered, hpath, hmethod, Ne.symm hmethod]
    · simp [addApi, registered, hpath, Ne.symm hpath]
  | cons p rest ih =>
    unfold addApi
    by_cases hp : p.1 = path
    · rw [if_pos hp]
      unfold registered
      by_cases hpath : path' = path
      · simp only [hpath, true_and, List.find?_cons, decide_true, hp, Option.bind_some,
          find?_addMethod]
        split <;> rfl
      · have hpp : p.1 ≠ path' := fun he => hpath (he.symm.trans hp)
        simp [hpath, Ne.symm hpath, hpp]
    · rw [if_neg hp]
      unfold registered at ih ⊢
      by_cases hpp : p.1 = path'
      · have hpath : path' ≠ path := fun he => hp (hpp.trans he)
        simp [hpp, hpath]
      · simpa [List.find?_cons, hpp] using ih

/-! ### Sequences of calls -/

theorem ofRoutes_concat (routes : List (Route H)) (r : Route H) :
    ofRoutes (routes ++ [r]) = addApi r.path r.method r.handler (ofRoutes routes) := by
  unfold ofRoutes
  rw [List.foldl_append]
  rfl

theorem map_fst_addApi (path : Bytes) (method : HttpMethod) (handler : H)
    (apiHandlers : ApiHandlers H) :
    (addApi path method handler apiHandlers).map Prod.fst
      = if path ∈ apiHandlers.map Prod.fst then apiHandlers.map Prod.fst
        else apiHandlers.map Prod.fst ++ [path] := by
  induction apiHandlers with
  | nil => rfl
  | cons p rest ih =>
    unfold addApi
    by_cases hp : p.1 = path
    · simp [hp]
    · rw [if_neg hp, List.map_cons, ih, List.map_cons]
      by_cases hrest : path ∈ rest.map Prod.fst
      · rw [if_pos hrest, if_pos (List.mem_cons_of_mem _ hrest)]
      · rw [if_neg hrest, if_neg]
        · rfl
        · exact fun hmem => (List.mem_cons.mp hmem).elim (fun he => hp he.symm) hrest

/-- No path has two entries. -/
theorem nodup_ofRoutes (routes : List (Route H)) : ((ofRoutes routes).map Prod.fst).Nodup := by
  induction routes using List.reverseRecOn with
  | nil => exact List.nodup_nil
  | append_singleton routes r ih =>
    rw [ofRoutes_concat, map_fst_addApi]
    split
    · exact ih
    · next hnew => exact List.nodup_append.mpr ⟨ih, List.nodup_singleton _, fun a ha b hb hab =>
        hnew (List.mem_singleton.mp hb ▸ hab ▸ ha)⟩

/-- The paths are those of the calls. -/
theorem exists_route_of_mem {routes : List (Route H)} {path : Bytes}
    (h : path ∈ (ofRoutes routes).map Prod.fst) : ∃ r ∈ routes, r.path = path := by
  induction routes using List.reverseRecOn with
  | nil => exact absurd h List.not_mem_nil
  | append_singleton routes r ih =>
    rw [ofRoutes_concat, map_fst_addApi] at h
    have hcases : path ∈ (ofRoutes routes).map Prod.fst ∨ path = r.path := by
      split at h
      · exact Or.inl h
      · exact (List.mem_append.mp h).imp_right List.mem_singleton.mp
    rcases hcases with hold | rfl
    · obtain ⟨r', hr', hpath⟩ := ih hold
      exact ⟨r', List.mem_append_left _ hr', hpath⟩
    · exact ⟨r, List.mem_append_right _ (List.mem_singleton.mpr rfl), rfl⟩

/-- The last call with a path and a method decides. -/
theorem registered_ofRoutes (routes : List (Route H)) (path : Bytes) (method : HttpMethod) :
    registered (ofRoutes routes) path method
      = (routes.reverse.find? fun r => r.path = path ∧ r.method = method).map Route.handler := by
  induction routes using List.reverseRecOn with
  | nil => rfl
  | append_singleton routes r ih =>
    rw [ofRoutes_concat, registered_addApi, ih, List.reverse_append, List.reverse_singleton,
      List.singleton_append, List.find?_cons]
    by_cases hr : path = r.path ∧ method = r.method
    · rw [if_pos hr]
      simp [hr.1, hr.2]
    · rw [if_neg hr]
      have hr' : ¬ (r.path = path ∧ r.method = method) := fun h => hr ⟨h.1.symm, h.2.symm⟩
      simp only [hr', decide_false]

/-- Where the paths are plain the order of the map plays no part. -/
theorem getApi_eq (hash : HashOrder) {routes : List (Route H)}
    (h : ∀ r ∈ routes, PlainPath r.path) (path : Bytes) (method : HttpMethod) :
    getApi hash (ofRoutes routes) path method
      = (registered (ofRoutes routes) (apiPath path) method).map fun handler => (handler, []) := by
  have hperm := hash.order_perm (ofRoutes routes)
  have hplain : ∀ p ∈ hash.order (ofRoutes routes), PlainPath p.1 := by
    intro p hp
    obtain ⟨r, hr, hpath⟩ := exists_route_of_mem (List.mem_map_of_mem (hperm.mem_iff.mp hp))
    exact hpath ▸ h r hr
  unfold getApi
  rw [getApiLoop_eq hplain, registered, find?_perm hperm (nodup_ofRoutes routes)]
  rfl

/-- **Routing.** With plain paths `GetApi` finds the handler of the last `AddApi` with the method of
the request and its path up to the query, and no field, in whatever order the map is gone through;
without such a call it finds none. -/
theorem getApi_ofRoutes (hash : HashOrder) (routes : List (Route H))
    (h : ∀ r ∈ routes, PlainPath r.path) (path : Bytes) (method : HttpMethod) :
    getApi hash (ofRoutes routes) path method
      = (routes.reverse.find? fun r => r.path = apiPath path ∧ r.method = method).map
          fun r => (r.handler, []) := by
  rw [getApi_eq hash h, registered_ofRoutes, Option.map_map]
  rfl

/-! ### The routes of `WebdiffHttpServer` -/

instance (path : Bytes) : Decidable (PlainPath path) :=
  decidable_of_iff (star ∉ path ∧ ¬ [slash, colon] <:+: path ∧ ¬ [slash, leftBrace] <:+: path)
    ⟨fun h => ⟨h.1, h.2.1, h.2.2⟩, fun h => ⟨h.star, h.colon, h.brace⟩⟩

theorem plainPath_routes : ∀ r ∈ routes, PlainPath r.path := by
  decide +kernel

/-- The query is no part of the route. -/
theorem getApi_ofRoutes_diff :
    getApi .insertion (ofRoutes routes) (lit "/api/diff/?left=1") .post
      = some (.post .diff, []) :=
  (getApi_ofRoutes .insertion routes plainPath_routes (lit "/api/diff/?left=1") .post).trans
    (by decide +kernel)

/-- The handler of a request. -/
def ClientRequest.api (req : ClientRequest) : Option Api :=
  registered (ofRoutes routes) (apiPath req.path) req.method

theorem getApi_routes (hash : HashOrder) (req : ClientRequest) :
    getApi hash (ofRoutes routes) req.path req.method = req.api.map fun api => (api, []) :=
  getApi_eq hash plainPath_routes req.path req.method

end WebDiff
