import ServiceSplit.Artifact.Embedded
import ServiceSplit.Artifact.Naming
import ServiceSplit.Compilation

/-!
# Artifacts

The files of a service or of the controller, from which it can be built and deployed.
-/

namespace ServiceSplit

/-- The files of a service or of the controller. -/
structure Artifact where
  /-- The name of the service, or the controller's. -/
  name : String
  /-- The names and texts of the files. -/
  files : List (String × String)
deriving DecidableEq, Repr, Inhabited

/-- Environment variables with their values. -/
abbrev Variables := List (String × String)

/-- The environment of the controller: its network port, and the address of each service that it
dispatches to. -/
def Config.controllerVariables (config : Config) (services : List String)
    (address : String → String) : Variables :=
  ("KOMPILE_CONTROLLER_PORT", Text.decimal config.controller.port) ::
    services.map fun service => (serviceVariable service, address service)

/-- The module file of an artifact. -/
def moduleFile (config : Config) (artifact : String) : String :=
  Embedded.moduleForm
    |> Embedded.fill "module" ("kompile/" ++ workloadName artifact)
    |> Embedded.fill "go_version" config.build.goVersion

/-- The environment in a deployment description. -/
def variableLines : Variables → String
  | [] => "            []"
  | env =>
    Text.joined "\n" <| env.map fun (key, value) =>
      "            - name: " ++ key ++ "\n              value: \"" ++ value ++ "\""

/-- The deployment description of an artifact, which is reached under a host name and a network
port. -/
def deploymentFile (config : Config) (artifact host : String) (portNumber : Nat) (env : Variables) :
    String :=
  Embedded.deploymentForm
    |> Embedded.fill "name" (workloadName artifact)
    |> Embedded.fill "image" (imageName config.registry.location artifact)
    |> Embedded.fill "port" (Text.decimal portNumber)
    |> Embedded.fill "host" host
    |> Embedded.fill "env" (variableLines env)

/-- The files of an artifact. -/
def artifactFiles (config : Config) (artifact source support deployment : String) :
    List (String × String) :=
  [("main.go", source),
    ("kompile_runtime.go", support),
    ("go.mod", moduleFile config artifact),
    ("Dockerfile", Embedded.dockerfile),
    ("deployment.yml", deployment)]

/-- The artifact of a service. -/
def Service.artifact (config : Config) (s : Service) : Artifact where
  name := s.name
  files := artifactFiles config s.name s.source Embedded.serviceSupport
    (deploymentFile config s.name (workloadName s.name) servicePort [])

/-- The address of a service inside the cluster. -/
def serviceAddress (service : String) : String :=
  "http://" ++ workloadName service ++ ":" ++ Text.decimal servicePort

/-- The artifact of the controller. -/
def Controller.artifact (config : Config) (c : Controller) : Artifact where
  name := controllerName
  files := artifactFiles config controllerName c.source Embedded.controllerSupport
    (deploymentFile config controllerName config.controller.host config.controller.port
      (config.controllerVariables c.services serviceAddress))

/-- All artifacts of a compilation, the controller last. -/
def Compilation.artifacts (config : Config) (c : Compilation) : List Artifact :=
  c.services.map (Service.artifact config) ++ [c.controller.artifact config]

end ServiceSplit
