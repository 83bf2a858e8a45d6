import Zebrafish.Lib.Script
import Zebrafish.Compose.Order

/-!
# Zebrafish.Compose.Service

The service that brings the compose projects up and down
(`etc/init.d/S64compose`).

What `docker` and the shell answer is up to the world.  A start creates all
projects in their order before it starts any; a stop goes through them in the
opposite order, and stops all before it removes any.  Containers left over from
an earlier boot are removed first, which a marker in `/run` limits to once.
-/

namespace Zebrafish.Compose

open Shell

/-- What `docker compose` is told to do. -/
inductive Verb
  | create | start | stop | down
deriving DecidableEq

/-- The commands of the service, and the reboots between its runs. -/
inductive Cmd
  | nerdctlVersion
  | sleep
  /-- `[[ -d "$COMPOSE_DATA_DIR" ]]` -/
  | isDataDir
  /-- `[[ -e "$COMPOSE_BOOT_MARKER" ]]` -/
  | hasMarker
  /-- `docker ps -aq` -/
  | dockerPs
  /-- `docker rm -f` -/
  | dockerRm (containers : List Char)
  /-- `: > "$COMPOSE_BOOT_MARKER"` -/
  | touchMarker
  /-- the paths of the compose files -/
  | find
  | cd (dir : Path)
  /-- `docker compose`, in a folder -/
  | compose (verb : Verb) (dir : Path)
  /-- `docker network rm` -/
  | networkRm (net : List Char)
  | reboot

/-- What they answer: if nothing else, whether they succeed. -/
abbrev Ans : Cmd → Type
  | .nerdctlVersion => Bool
  | .sleep => Unit
  | .isDataDir => Bool
  | .hasMarker => Bool
  | .dockerPs => List Char
  | .dockerRm _ => Bool
  | .touchMarker => Unit
  | .find => List Path
  | .cd _ => Bool
  | .compose .. => Bool
  | .networkRm _ => Bool
  | .reboot => Unit

/-- Runs a command. -/
def sh (c : Cmd) : Script Ans (Ans c) := Script.command c

/-- The loop of `wait_for_containerd`, for so many rounds. -/
def waitForContainerd : Nat → Script Ans Bool
  | 0 => pure false
  | n + 1 => do
      let ok ← sh .nerdctlVersion
      if ok then pure true
      else
        sh .sleep
        waitForContainerd n

/-- Removes what an earlier boot has left, the first time in a boot. -/
def dropOrphans : Script Ans Unit := do
  let marked ← sh .hasMarker
  if marked then pure ()
  else
    let orphaned ← sh .dockerPs
    let orphaned := capture orphaned
    if orphaned = [] then sh .touchMarker
    else
      let _ ← sh (.dockerRm orphaned)
      sh .touchMarker

/-- `docker compose` in the folder of a project, if that can be entered. -/
def inFolder (verb : Verb) (file : Path) : Script Ans Unit := do
  let ok ← sh (.cd (dirname file))
  if ok then
    let _ ← sh (.compose verb (dirname file))
    pure ()
  else pure ()

/-- The same for one project after the other. -/
def inFolders (verb : Verb) (files : List Path) : Script Ans Unit :=
  files.foldlM (fun _ file => inFolder verb file) ()

section

variable (content : Path → List Char) (expand : Path → List Path)

/-- Removes a project, and then the networks it declares. -/
def tearDown (file : Path) : Script Ans Unit := do
  let ok ← sh (.cd (dirname file))
  if ok then
    let _ ← sh (.compose .down (dirname file))
    (declared content file).foldlM (fun _ net => do
      let _ ← sh (.networkRm net)
      pure ()) ()
  else pure ()

/-- `do_start`; `false` where the source exits. -/
def doStart : Script Ans Bool := do
  let _ ← waitForContainerd 5
  let there ← sh .isDataDir
  if there then
    dropOrphans
    let found ← sh .find
    let projects := composeProjects content expand found
    inFolders .create projects
    inFolders .start projects
    pure true
  else pure false

/-- `do_stop` -/
def doStop : Script Ans Bool := do
  let there ← sh .isDataDir
  if there then
    let found ← sh .find
    let projects := (composeProjects content expand found).reverse
    inFolders .stop projects
    projects.foldlM (fun _ file => tearDown content file) ()
    pure true
  else pure false

/-- What happens to the service. -/
inductive Action
  | start | stop | restart | reboot

def act : Action → Script Ans Unit
  | .start => do
      let _ ← doStart content expand
      pure ()
  | .stop => do
      let _ ← doStop content expand
      pure ()
  | .restart => do
      let going ← doStop content expand
      if going then
        let _ ← doStart content expand
        pure ()
      else pure ()
  | .reboot => sh .reboot

end

/-- One action after the other; the compose files may change between them. -/
def acts (expand : Path → List Path) (as : List ((Path → List Char) × Action)) : Script Ans Unit :=
  as.foldlM (fun _ a => act a.1 expand a.2) ()

/-! ## the list of projects -/

/-- Paths that are no patterns come through, when there are any. -/
theorem composeProjects_plain (content : Path → List Char) {expand : Path → List Path}
    {found : List Path} (hne : found ≠ []) (hpaths : ∀ p ∈ found, IsPath p)
    (hexpand : ∀ p ∈ found, expand p = [p]) :
    composeProjects content expand found = orderComposeProjects content found := by
  have hmap : found.flatMap expand = found := by
    rw [List.flatMap_congr hexpand, List.flatMap_singleton']
  have hperm := perm_orderComposeProjects content found
  rw [composeProjects_eq content expand hpaths, hmap, mapfile_printf]
  · intro hnil
    rw [hnil] at hperm
    exact hne hperm.symm.eq_nil
  · intro w hw hmem
    have hspace := ((hpaths w (hperm.mem_iff.mp hw)).2 _ hmem).1
    simp [isSpace] at hspace

end Zebrafish.Compose
