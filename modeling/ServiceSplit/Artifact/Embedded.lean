import ServiceSplit.Text.Basic

/-!
# Texts that artifacts are made of

The files that are the same for all programs, and the forms of those that differ in a few places. A
place to fill in is a name in double braces.
-/

namespace ServiceSplit.Embedded

/-- The functions with which services post what they send. -/
def serviceSupport : String :=
  Text.lines
    ["package main",
      "",
      "import (",
      "\t\"bytes\"",
      "\t\"encoding/json\"",
      "\t\"log\"",
      "\t\"net/http\"",
      ")",
      "",
      "// kompileCallback posts value, JSON encoded, to a controller endpoint.",
      "// Failures are logged; the function run that produced the value carries on.",
      "func kompileCallback(url string, value any) \x7b",
      "\tpayload, err := json.Marshal(value)",
      "\tif err != nil \x7b",
      "\t\tlog.Printf(\"kompile: could not encode callback for %s: %v\", url, err)",
      "\t\treturn",
      "\t\x7d",
      "\tresp, err := http.Post(url, \"application/json\", bytes.NewReader(payload))",
      "\tif err != nil \x7b",
      "\t\tlog.Printf(\"kompile: callback to %s failed: %v\", url, err)",
      "\t\treturn",
      "\t\x7d",
      "\tdefer resp.Body.Close()",
      "\tif resp.StatusCode >= 300 \x7b",
      "\t\tlog.Printf(\"kompile: callback to %s answered %s\", url, resp.Status)",
      "\t\x7d",
      "\x7d",
      "",
      "// kompileCallbackError posts err's message, or null for a nil error.",
      "func kompileCallbackError(url string, err error) \x7b",
      "\tvar message *string",
      "\tif err != nil \x7b",
      "\t\ttext := err.Error()",
      "\t\tmessage = &text",
      "\t\x7d",
      "\tkompileCallback(url, message)",
      "\x7d"]

/-- The functions with which the controller dispatches and listens. -/
def controllerSupport : String :=
  Text.lines
    ["package main",
      "",
      "import (",
      "\t\"bytes\"",
      "\t\"encoding/json\"",
      "\t\"fmt\"",
      "\t\"io\"",
      "\t\"log\"",
      "\t\"net/http\"",
      "\t\"os\"",
      "\t\"strings\"",
      ")",
      "",
      "// kompileServiceAddress looks up the address a service was deployed at.",
      "func kompileServiceAddress(service string) (string, error) \x7b",
      "\tkey := \"KOMPILE_SERVICE_\" + strings.Map(func(r rune) rune \x7b",
      "\t\tswitch \x7b",
      "\t\tcase r >= 'a' && r <= 'z':",
      "\t\t\treturn r - 'a' + 'A'",
      "\t\tcase r >= 'A' && r <= 'Z', r >= '0' && r <= '9':",
      "\t\t\treturn r",
      "\t\tdefault:",
      "\t\t\treturn '_'",
      "\t\t\x7d",
      "\t\x7d, service)",
      "\taddress := os.Getenv(key)",
      "\tif address == \"\" \x7b",
      "\t\treturn \"\", fmt.Errorf(\"no address for service %s: %s is not set\", service, key)",
      "\t\x7d",
      "\treturn address, nil",
      "\x7d",
      "",
      "// kompileDispatch starts one run of a service with body as its trigger",
      "// payload. It returns once the service has accepted the request.",
      "func kompileDispatch(service, contentType string, body io.Reader) error \x7b",
      "\taddress, err := kompileServiceAddress(service)",
      "\tif err != nil \x7b",
      "\t\treturn err",
      "\t\x7d",
      "\tresp, err := http.Post(address, contentType, body)",
      "\tif err != nil \x7b",
      "\t\treturn fmt.Errorf(\"dispatch to %s: %w\", service, err)",
      "\t\x7d",
      "\tdefer resp.Body.Close()",
      "\tif resp.StatusCode >= 300 \x7b",
      "\t\treturn fmt.Errorf(\"dispatch to %s: %s\", service, resp.Status)",
      "\t\x7d",
      "\treturn nil",
      "\x7d",
      "",
      "func kompileDispatchJSON(service string, payload any) error \x7b",
      "\tbody, err := json.Marshal(payload)",
      "\tif err != nil \x7b",
      "\t\treturn fmt.Errorf(\"encode payload for %s: %w\", service, err)",
      "\t\x7d",
      "\treturn kompileDispatch(service, \"application/json\", bytes.NewReader(body))",
      "\x7d",
      "",
      "// kompileListen serves the callback handlers registered on the default mux.",
      "func kompileListen() \x7b",
      "\tport := os.Getenv(\"KOMPILE_CONTROLLER_PORT\")",
      "\tif port == \"\" \x7b",
      "\t\tport = \"8080\"",
      "\t\x7d",
      "\tlog.Printf(\"kompile: controller listening for callbacks on :%s\", port)",
      "\tlog.Fatal(http.ListenAndServe(\":\"+port, nil))",
      "\x7d"]

/-- How an image is made. -/
def dockerfile : String :=
  Text.lines
    ["FROM scratch",
      "COPY main /main",
      "EXPOSE 8080",
      "ENTRYPOINT [\"/main\"]"]

/-- The form of the module file. -/
def moduleForm : String :=
  Text.lines
    ["module \x7b\x7bmodule\x7d\x7d",
      "",
      "go \x7b\x7bgo_version\x7d\x7d"]

/-- The form of the deployment description. -/
def deploymentForm : String :=
  Text.lines
    ["apiVersion: apps/v1",
      "kind: Deployment",
      "metadata:",
      "  name: \x7b\x7bname\x7d\x7d",
      "spec:",
      "  replicas: 1",
      "  selector:",
      "    matchLabels:",
      "      app: \x7b\x7bname\x7d\x7d",
      "  template:",
      "    metadata:",
      "      labels:",
      "        app: \x7b\x7bname\x7d\x7d",
      "    spec:",
      "      containers:",
      "        - name: \x7b\x7bname\x7d\x7d",
      "          image: \x7b\x7bimage\x7d\x7d",
      "          ports:",
      "            - containerPort: \x7b\x7bport\x7d\x7d",
      "          env:",
      "\x7b\x7benv\x7d\x7d",
      "---",
      "apiVersion: v1",
      "kind: Service",
      "metadata:",
      "  name: \x7b\x7bhost\x7d\x7d",
      "spec:",
      "  selector:",
      "    app: \x7b\x7bname\x7d\x7d",
      "  ports:",
      "    - port: \x7b\x7bport\x7d\x7d",
      "      targetPort: \x7b\x7bport\x7d\x7d"]

/-- A form with the place `name` filled in. -/
def fill (name value form : String) : String :=
  Text.replaceAll form ("\x7b\x7b" ++ name ++ "\x7d\x7d") value

end ServiceSplit.Embedded
